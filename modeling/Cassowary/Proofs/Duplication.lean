import Cassowary.Proofs.Demand
import Cassowary.Proofs.Occurrence
import Cassowary.Proofs.Presence
import Cassowary.Proofs.Unmoved

/-!
# Constraints that are held already

A required constraint may be inserted a second time. Its value is then settled by the marker of the
first one: on the solutions it is the negated marker. So nothing is left of the new equation but the
two markers, or what the tableau says of the first one, and it is solved for the second marker.

The new row is feasible, and the objective does not mention the new marker. So there is nothing to
optimise. The tableau gets one more row and makes no pivot, and the values of all variables stay.

## Main definitions

* `Handle.Doubles` — the marker of a constraint is as large as another marker
* `Tableau.Absorbs` — a tableau has taken an equation in, and nothing has moved

## Main results

* `Tableau.Sound.ensures_insertRow_duplicate` — the equation is solved for its marker
* `Tableau.Sound.ensures_addConstraint_duplicate` — the insertion makes no pivot and moves no value
* `Solver.run_insert_duplicate` — inserting a required constraint again after a run
-/

namespace Cassowary

open Attempt

/-- What has to hold has a strength that is not negative. -/
theorem Strength.nonneg_of_isRequired {w : Strength Rat} (hw : w.isRequired = true) :
    0 ≤ w.value := by
  have hle : (Strength.required : Strength Rat).value ≤ w.value := of_decide_eq_true hw
  refine le_trans ?_ hle
  norm_num [Strength.required]

namespace Handle

/-- A required constraint gets a single symbol, if there is one left. -/
theorem issue_required (relation : Relation) (n : Nat) :
    issue relation true n = if n ≤ Key.maxIndex
      then .ok (⟨.ofIndex (kinds relation true).1 false n, none⟩, n + 1)
      else .error (.indexSpaceExhausted n) := by
  by_cases hn : n ≤ Key.maxIndex
  · rw [if_pos hn]
    cases relation <;> exact issue_eq_ok_single rfl (Key.allocate_of_le _ hn)
  · rw [if_neg hn]
    cases relation <;> exact issue_eq_error rfl (Key.allocate_of_lt _ (not_le.mp hn))

/-- The equation of a required constraint says of its marker that it is as large as another one,
which is of the same kind. -/
structure Doubles (handle : Handle) (m : Key) (S : Assignment Rat → Prop)
    (f : Assignment Rat → Rat) : Prop where
  other : handle.other = none
  restricted : m.unrestricted = false
  kind : handle.marker.kind = m.kind
  value : ∀ v, S v → f v = v handle.marker - v m

/-- A new handle that fits a required constraint doubles the marker of an old one that does. -/
theorem Fits.doubles {h h₀ : Handle} {c : Constraint Rat} {S : Assignment Rat → Prop}
    (hfits : h.Fits c.relation true) (hfits₀ : h₀.Fits c.relation true)
    (hheld : ∀ v, S v → c.equation h₀ v = 0) : h.Doubles h₀.marker S (c.equation h) where
  other := hfits.other_eq_none
  restricted := hfits₀.unrestricted List.mem_cons_self
  kind := by
    cases hrelation : c.relation <;> rw [hrelation] at hfits hfits₀ <;> rw [hfits.1, hfits₀.1]
  value v hv := by
    have hzero := hheld v hv
    rw [Constraint.equation, hfits₀.other_eq_none, Option.elim_none] at hzero
    rw [Constraint.equation, hfits.other_eq_none, Option.elim_none]
    linarith

end Handle

namespace Tableau

variable {t : Tableau Rat} {S : Assignment Rat → Prop} {cost f : Assignment Rat → Rat}
  {row : Row Rat} {m : Key} {handle h₀ : Handle} {c : Constraint Rat} {w : Strength Rat}

/-- A tableau has taken an equation in. It has given out a symbol for it, has made no pivot, and no
variable has moved. -/
structure Absorbs (t t' : Tableau Rat) : Prop where
  room : t.nextId ≤ Key.maxIndex
  nextId : t'.nextId = t.nextId + 1
  pivots : t'.pivots = t.pivots
  value : ∀ k, k.unrestricted = true → t'.basicSolution k = t.basicSolution k

section Doubles

variable (h : t.Sound True True S cost) (hrow : row.Encodes t S f) (hmarks : handle.Marks S cost f)
  (hdoubles : handle.Doubles m S f)
include h hrow hmarks hdoubles

/-- The row of the equation has the marker and, in its constant, the value of the other one. -/
theorem Sound.constant_of_doubles : ∃ sign : Rat, (sign = 1 ∨ sign = -1) ∧
    row.coefficientFor handle.marker = sign ∧ row.constant = sign * -t.basicSolution m := by
  have hr := h.prepared.represents
  have hsolution := hr.solves_complete fun _ => 0
  have hignores := hmarks.ignores handle.marker List.mem_cons_self
  have hmarker : t.basicSolution handle.marker = 0 :=
    complete_of_isBasic_eq_false (hr.isBasic_eq_false hignores) _
  obtain ⟨sign, hsign, hvalue⟩ := hrow.value
  refine ⟨sign, hsign, Row.coefficientFor_of_evaluate_eq hr hvalue hignores fun v x => ?_, ?_⟩
  · dsimp only
    rw [hmarks.marker v x]
    ring
  · have hstart := hvalue _ hsolution
    rw [evaluate_complete hrow.over_tableau hrow.proper, Row.evaluate_zero,
      hdoubles.value _ hsolution, ← basicSolution, hmarker, zero_sub] at hstart
    exact hstart

/-- The row of the new marker is feasible, since its value is that of the marker which the equation
doubles. -/
theorem Sound.feasible_install_of_doubles : (t.install row handle.marker).Feasible := by
  obtain ⟨sign, hsign, hcoefficient, hconstant⟩ := h.constant_of_doubles hrow hmarks hdoubles
  refine h.prepared.feasible_install (h.feasible trivial)
    (hmarks.ignores _ List.mem_cons_self) ?_
  rw [Row.constant_solveFor (hmarks.coefficientFor_marker_ne_zero hrow h.prepared.represents),
    hcoefficient, hconstant]
  have hnonneg := (h.feasible trivial).basicSolution_nonnegative m hdoubles.restricted
  rcases hsign with rfl | rfl <;> simpa using hnonneg

omit hmarks in
/-- No layout variable is left in the row of an equation that doubles one, since the two markers
settle it. -/
theorem Sound.coefficientFor_eq_zero_of_doubles {k : Key} (hk : k.unrestricted = true) :
    row.coefficientFor k = 0 := by
  have hsettled : Settles (·.unrestricted = false) S f := fun v w hv hw hsame => by
    have hmarker : handle.marker.unrestricted = false := by
      have hrestricted := hdoubles.restricted
      unfold Key.unrestricted at hrestricted ⊢
      rwa [hdoubles.kind]
    rw [hdoubles.value v hv, hdoubles.value w hw, hsame _ hdoubles.restricted, hsame _ hmarker]
  rw [hrow.settles_iff h.prepared.represents fun k r hr hk k' hk' => Bool.eq_false_iff.mpr fun hu =>
    hk' (h.prepared.canonical.layered.row hr hk hu)] at hsettled
  by_contra hne
  cases hk.symm.trans (hsettled k hne)

/-- If an equation that doubles one has no variable to be solved for, nothing is left of it but
dummies, and it is redundant. -/
theorem Sound.redundant_of_doubles (hsubject : row.subject? handle = none) :
    row.allDummies = true ∧ row.constant = 0 := by
  have hr := h.prepared.represents
  have hdummy := (hmarks.dummy_of_subject?_eq_none hrow hr hsubject).1
  have hm : m.dummy = true := by rwa [Key.dummy, ← hdoubles.kind]
  have hsettled : Settles (·.dummy = true) S f := fun v w hv hw hsame => by
    rw [hdoubles.value v hv, hdoubles.value w hw, hsame _ hm, hsame _ hdummy]
  refine ⟨(Row.allDummies_iff hrow.proper).mpr ((hrow.settles_iff hr fun k r hr hk =>
    (h.prepared.idle trivial trivial k r hr hk).2).mp hsettled), ?_⟩
  have hold : t.basicSolution m = 0 := by
    cases hbasic : t.rows.get? m with
    | some r => rw [basicSolution_of_get? hbasic, (h.prepared.idle trivial trivial m r hbasic hm).1]
    | none => rw [basicSolution_of_get?_eq_none hbasic]
  obtain ⟨sign, -, -, hconstant⟩ := h.constant_of_doubles hrow hmarks hdoubles
  rw [hconstant, hold, neg_zero, mul_zero]

/-- The equation is solved for its own marker, and the row that this gets is feasible. -/
theorem Sound.ensures_insertRow_duplicate (hdeferred : t.deferred = false) :
    Ensures (insertRow row handle) t
      (fun _ t' => t' = t.install row handle.marker ∧ t'.Feasible ∧
        t'.Prepared True True (fun v => S v ∧ f v = 0) cost) fun _ _ => False := by
  have hfeasible := h.feasible_install_of_doubles hrow hmarks hdoubles
  have hnone := h.redundant_of_doubles hrow hmarks hdoubles
  refine ensures_insertRow_of (ensures_prepareFor_of_not_deferred hdeferred row handle) ?_ ?_ ?_ ?_
  · rintro _ _ subject ⟨rfl, rfl⟩ hsubject
    have hsuits := Row.subject?_suits hrow.proper hsubject
    have hsingle : ∀ k ∈ handle.markers, k = handle.marker := by
      simp [Handle.markers, hdoubles.other]
    cases subject with
    | free k => exact absurd (h.coefficientFor_eq_zero_of_doubles hrow hdoubles hsuits.1) hsuits.2
    | feasible k =>
      obtain rfl := hsingle k hsuits.1.1
      exact ⟨rfl, hfeasible, (h.install_feasible hrow hmarks hsuits).prepared⟩
    | infeasible k =>
      obtain rfl := hsingle k hsuits.1.1
      exact ⟨rfl, hfeasible, (h.install_infeasible hrow hmarks hsuits fun _ _ =>
        h.optimal trivial hdeferred).prepared⟩
  -- The constant is zero, so that the equation is redundant
  · rintro _ _ ⟨rfl, rfl⟩ hsubject - hlarge
    rw [h.prepared.epsilon trivial, (hnone hsubject).2, Scalar.magnitude_rat, abs_zero] at hlarge
    exact lt_irrefl 0 hlarge
  · rintro _ _ ⟨rfl, rfl⟩ hsubject hall -
    exact ⟨rfl, hfeasible, (h.install_redundant hrow hmarks
      (fun _ => h.coefficientFor_eq_zero_of_doubles hrow hdoubles)
      ((Row.allDummies_iff hrow.proper).mp hall) fun _ => (hnone hsubject).2).prepared⟩
  · rintro _ _ ⟨rfl, rfl⟩ hsubject hall
    exact absurd (hnone hsubject).1 hall

/-- Inserting an equation that doubles one makes no pivot and moves nothing but the new marker, as
there is nothing to optimise. -/
theorem Sound.ensures_insertRow_finish_duplicate (hdeferred : t.deferred = false) :
    Ensures (do insertRow row handle; finish false) t
      (fun _ t' => t'.nextId = t.nextId ∧ t'.pivots = t.pivots ∧
        ∀ k, k ≠ handle.marker → t'.basicSolution k = t.basicSolution k) fun _ _ => False := by
  have hr := h.prepared.represents
  have hignores := hmarks.ignores handle.marker List.mem_cons_self
  refine ensures_bind _ |>.mpr ((h.ensures_insertRow_duplicate hrow hmarks hdoubles hdeferred).imp
    ?_ fun _ _ => id)
  rintro _ _ ⟨rfl, hfeasible, hprepared⟩
  have hminimal : (t.install row handle.marker).objective.Minimal :=
    minimal_install hr (h.optimal trivial hdeferred)
      (hr.objective_coefficientFor_eq_zero hignores (hmarks.cost hdoubles.other))
  have hfinished : finish false (t.install row handle.marker) = .ok ()
      { t.install row handle.marker with infeasible := [], deferred := false } :=
    hprepared.solve_eq trivial hfeasible hminimal
  rw [Ensures, hfinished]
  refine ⟨nextId_enter _ _ _, pivots_enter _ _ _, fun k hne => ?_⟩
  show (t.install row handle.marker).basicSolution k = _
  rw [basicSolution_install hr hignores (hmarks.coefficientFor_marker_ne_zero hrow hr),
    Function.update_of_ne hne]

end Doubles

/-- A required constraint that is inserted again makes no pivot and moves nothing. It fails only if
there is no symbol left for it. -/
theorem Sound.ensures_addConstraint_duplicate (h : t.Sound True True S cost)
    (hdeferred : t.deferred = false) (hnew : ∀ k, ¬ t.Known k → CostIgnores cost k)
    (hc : c.OverLayout) (hw : w.isRequired = true) (hfits₀ : h₀.Fits c.relation true)
    (hheld : ∀ v, S v → c.equation h₀ v = 0) :
    Ensures (addConstraint c w false) t (fun _ t' => t.Absorbs t')
      fun cause _ => Key.maxIndex < t.nextId ∧ cause = .indexSpaceExhausted t.nextId := by
  have hcreated := (((ensures_createRow h hc fun _ => Strength.nonneg_of_isRequired hw).and
    (ensures_createRow_rows c w t)).and (ensures_createRow_counts c w t)).and
    (ensures_createRow_issue c w t)
  unfold addConstraint
  rw [ensures_bind]
  refine hcreated.imp ?_ ?_
  · rintro ⟨row, handle⟩ t₁ ⟨⟨⟨⟨hfits, hfresh, h₁, hrow⟩, hrows, -⟩, hpivots, hdeferred₁⟩, hissue⟩
    dsimp only at hfits hfresh h₁ hrow hissue ⊢
    rw [hw] at hfits hissue
    rw [Handle.issue_required] at hissue
    split at hissue
    · next hroom =>
      have hid : t.nextId + 1 = t₁.nextId := by
        injection hissue with hissue
        exact congrArg Prod.snd hissue
      have hmarks := h.prepared.represents.marks hnew hc w hfits hfresh
      have hinserted := h₁.ensures_insertRow_finish_duplicate hrow hmarks
        (hfits.doubles hfits₀ hheld) (hdeferred₁.trans hdeferred)
      rw [ensures_bind] at hinserted ⊢
      refine hinserted.imp (fun _ t₂ hfinished => ?_) fun _ _ => False.elim
      refine ensures_bind _ |>.mpr (hfinished.imp ?_ fun _ _ => False.elim)
      rintro _ t₃ ⟨hid₃, hpivots₃, hvalue⟩
      refine ⟨hroom, hid₃.trans hid.symm, hpivots₃.trans hpivots, fun k hk => ?_⟩
      have hne : k ≠ handle.marker := by
        rintro rfl
        cases hk.symm.trans (hfits.unrestricted List.mem_cons_self)
      rw [hvalue k hne, basicSolution_congr hrows]
    · cases hissue
  · rintro cause _ ⟨-, hissue⟩
    rw [hw, Handle.issue_required] at hissue
    split at hissue
    · cases hissue
    · next hfull =>
      injection hissue with hcause
      exact ⟨not_le.mp hfull, hcause.symm⟩

end Tableau

namespace State

variable {s : State Rat} {h : Handle} {r : Record Rat}

/-- What has to hold does not move with the target of an edit variable. -/
theorem Tidy.current_of_required (hs : s.Tidy) (hr : s.constraints.get? h = some r)
    (hrequired : r.strength.isRequired = true) : s.current h r = r.constraint := by
  rcases s.current_cases h r with ⟨x, e, he, rfl, -⟩ | ⟨-, hcurrent⟩
  · obtain ⟨r', hr', -, hsoft⟩ := hs.edit x e he
    cases hr.symm.trans hr'
    cases hrequired.symm.trans hsoft
  · exact hcurrent

end State

namespace Solver

variable {s : Solver Rat} {config : Config Rat} {os : List (Operation Rat)} {h : Handle}
  {c : Constraint Rat} {w w' : Strength Rat}

/-- A solver takes a required constraint that it holds in once more. -/
theorem Working.ensures_insert_duplicate (hs : s.Working config) (hbatch : s.batch = none)
    (hheld : s.state.constraints.get? h = some ⟨c, w⟩) (hw : w.isRequired = true)
    (hw' : w'.isRequired = true) :
    Ensures (insert c w') s (fun _ s' => s.state.tableau.Absorbs s'.state.tableau)
      fun cause _ => Key.maxIndex < s.state.tableau.nextId ∧
        cause = .indexSpaceExhausted s.state.tableau.nextId := by
  have htidy := hs.sound.state.tidy
  have hfits := htidy.fits h _ hheld
  have hequation : ∀ v, s.state.Equations v → c.equation h v = 0 := by
    intro v hv
    have hcurrent := State.equations_iff.mp hv h _ hheld
    rwa [htidy.current_of_required hheld hw] at hcurrent
  have hbatching : s.isBatching = false := by rw [isBatching, hbatch]; rfl
  have hadded : ∀ t, t = s.state.tableau ∨ t = s.state.tableau.begin →
      Ensures (Tableau.addConstraint c w' s.isBatching) t
        (fun _ t' => s.state.tableau.Absorbs t')
        fun cause _ => Key.maxIndex < s.state.tableau.nextId ∧
          cause = .indexSpaceExhausted s.state.tableau.nextId := by
    intro t ht
    obtain ⟨hsound, hdeferred, hknown⟩ := hs.sound.noted hbatch ht
    have hid : t.nextId = s.state.tableau.nextId := by rcases ht with rfl | rfl <;> rfl
    dsimp only at hfits
    rw [hw] at hfits
    rw [hbatching, ← hid]
    refine (hsound.ensures_addConstraint_duplicate hdeferred hknown (htidy.layout h _ hheld) hw' hfits
      hequation).imp (fun _ t' ht' => ?_) fun _ _ => id
    rcases ht with rfl | rfl
    · exact ht'
    · exact ⟨ht'.room, ht'.nextId, ht'.pivots, ht'.value⟩
  refine ensures_insert_of ((ensures_guarded_of (fun _ => Tableau.keeps_addConstraint c w' _)
    hs.rest hadded).imp ?_ fun _ _ hfailed => hfailed.1.elim fun _ => id)
  rintro h' s' ⟨t, ht, rfl⟩
  exact ⟨ht.room, ht.nextId, ht.pivots, ht.value⟩

section Step

variable (hs : s.Working config) (hbatch : s.batch = none)
  (hheld : s.state.constraints.get? h = some ⟨c, w⟩) (hw : w.isRequired = true)
  (hw' : w'.isRequired = true)
include hs hbatch hheld hw hw'

/-- As long as there are symbols, inserting a constraint that is held succeeds. -/
theorem Working.step_insert_duplicate (hroom : s.state.tableau.nextId ≤ Key.maxIndex) :
    ∃ h', (s.step (.insert c w')).1 = .ok (.inserted h') ∧
      (s.step (.insert c w')).2.Working config ∧ (s.step (.insert c w')).2.batch = none ∧
      s.state.tableau.Absorbs (s.step (.insert c w')).2.state.tableau ∧
      s.state.constraints.get? h' = none ∧ ∃ t, (s.step (.insert c w')).2.state =
        State.register { s.state with tableau := t } h' ⟨c, w'⟩ := by
  have hc := hs.sound.state.tidy.layout h _ hheld
  rcases step_insert_of_ensures (hs.ensures_insert_duplicate hbatch hheld hw hw') with
    ⟨h', hanswer, habsorbs⟩ | ⟨cause, -, hfull, -⟩
  · rcases hs.step_insert_cases hc (Strength.nonneg_of_isRequired hw') with
      ⟨h'', hanswer', hworking, hbatch', -, hnew, hstate⟩ | ⟨cause, hcause, -⟩
    · cases hanswer.symm.trans hanswer'
      exact ⟨h', hanswer, hworking, hbatch'.trans hbatch, habsorbs, hnew, hstate⟩
    · cases hanswer.symm.trans hcause
  · exact absurd hroom (not_le.mpr hfull)

/-- When the symbols are used up, inserting a constraint that is held fails for that. -/
theorem Working.step_insert_exhausted (hfull : Key.maxIndex < s.state.tableau.nextId) :
    (s.step (.insert c w')).1 = .error (.indexSpaceExhausted s.state.tableau.nextId) := by
  rcases step_insert_of_ensures (hs.ensures_insert_duplicate hbatch hheld hw hw') with
    ⟨h', -, habsorbs⟩ | ⟨cause, hcause, -, rfl⟩
  · exact absurd habsorbs.room (not_le.mpr hfull)
  · exact hcause

end Step

/-- In exact arithmetic, after any run without removals that leaves the solver with values and no
batch open: a required constraint that is held is inserted again. As long as there are symbols, this
succeeds without a pivot, adds one row, and every variable is told as before. When the symbols are
used up, it fails for that. -/
theorem run_insert_duplicate (hepsilon : config.epsilon = 0)
    (hos : ∀ o ∈ os, o.Reduced ∧ o.Lawful True) (hkept : ∀ o ∈ os, ∀ h, o ≠ .remove h)
    (hrun : (ofConfig config).run os = s) (hpoisoned : s.poisoned = false) (hbatch : s.batch = none)
    (hheld : s.state.constraints.get? h = some ⟨c, w⟩) (hw : w.isRequired = true)
    (hw' : w'.isRequired = true) :
    if s.state.tableau.nextId ≤ Key.maxIndex then
      ∃ h' s', s.step (.insert c w') = (.ok (.inserted h'), s') ∧
        s'.stats.pivots = s.stats.pivots ∧ s'.stats.rows = s.stats.rows + 1 ∧
        ∀ x, s'.read x = s.read x
    else (s.step (.insert c w')).1 = .error (.indexSpaceExhausted s.state.tableau.nextId) := by
  have horderly : s.Orderly config := by
    subst hrun
    exact (orderly_ofConfig config).run fun o ho => (hos o ho).1
  have hworking : s.Working config := by
    subst hrun
    exact ⟨horderly.rest, sound_run (fun _ => hepsilon) (fun o ho => (hos o ho).2)
      (fun _ _ => sparing_of_forall_ne hkept _) hpoisoned, hpoisoned⟩
  split
  · next hroom =>
    obtain ⟨h', hanswer, hworking', hbatch', habsorbs, hnew, t, ht⟩ :=
      hworking.step_insert_duplicate hbatch hheld hw hw' hroom
    have hbalanced' : (s.step (.insert c w')).2.state.Balanced := by
      have hc := hworking.sound.state.tidy.layout h _ hheld
      have hlisted := horderly.balanced.state.listed h _ hheld
      have hensures : Ensures (perform (.insert c w')) s
          (fun _ s' => s'.state.Balanced) fun _ _ => True := by
        refine ensures_map _ |>.mpr ((ensures_insert_retains horderly.rest horderly.apart hc w').imp
          ?_ fun _ _ _ => trivial)
        rintro h' _ ⟨s₁, hs₁, hfits, hbetween, rfl⟩
        exact (horderly.balanced.posting (.entered hs₁ hfits hbetween hlisted (.inl rfl))).state
      exact hensures.of_ok hanswer
    refine ⟨h', _, Prod.ext hanswer rfl, habsorbs.pivots, ?_, fun x => ?_⟩
    · show (s.step (.insert c w')).2.state.tableau.rows.size = s.state.tableau.rows.size + 1
      rw [hworking'.sound.state.size_rows, hworking.sound.state.size_rows, ht]
      exact Table.size_insert hnew
    · have hmentioned : (s.step (.insert c w')).2.state.Mentioned x.key ↔
          s.state.Mentioned x.key := by
        rw [ht]
        exact (State.mentioned_register (s := { s.state with tableau := t }) hnew).trans
          (or_iff_right_of_imp fun hk => ⟨h, _, hheld, hk⟩)
      rw [hworking'.sound.read_eq hbalanced' hworking'.poisoned,
        hworking.sound.read_eq horderly.balanced.state hpoisoned]
      by_cases hk : s.state.Mentioned x.key
      · rw [if_pos hk, if_pos (hmentioned.mpr hk), habsorbs.value _
          (hworking.sound.state.tidy.unrestricted_of_mentioned hk)]
      · rw [if_neg hk, if_neg fun hk' => hk (hmentioned.mp hk')]
  · next hfull => exact hworking.step_insert_exhausted hbatch hheld hw hw' (not_le.mp hfull)

/-- A variable has a lower bound and a weak target above it, and a sum with another one is fixed. -/
def bounded : List (Operation Rat) :=
  [.insert (.ofFormulas (.var (.external 0)) .greaterOrEqual (.number 1)) .required,
    .insert (.ofFormulas (.add (.var (.external 0)) (.var (.external 1))) .equal (.number 10))
      .required,
    .insert ((Variable.external 0).heldAt 5) .weak]

/-- The bound is inserted again where the slack of the first one is basic. -/
theorem run_insert_duplicate_bound :
    ((ofConfig ⟨0, true, 100⟩).run bounded).state.tableau.isBasic (.ofIndex .slack false 0) = true ∧
    ∃ h s, ((ofConfig ⟨0, true, 100⟩).run bounded).step (.insert
        (.ofFormulas (.var (.external 0)) .greaterOrEqual (.number 1)) .required) =
          (.ok (.inserted h), s) ∧
      s.stats.pivots = ((ofConfig ⟨0, true, 100⟩).run bounded).stats.pivots ∧
      s.stats.rows = ((ofConfig ⟨0, true, 100⟩).run bounded).stats.rows + 1 ∧
      ∀ x, s.read x = ((ofConfig ⟨0, true, 100⟩).run bounded).read x := by
  have hos : ∀ o ∈ bounded, o.Reduced ∧ o.Lawful True := by
    intro o ho
    simp only [bounded, List.mem_cons, List.not_mem_nil, or_false] at ho
    rcases ho with rfl | rfl | rfl <;>
      refine ⟨?_, Constraint.overLayout_reduce _ _ _, fun _ => by decide +kernel⟩
    · exact ⟨_, _, _, rfl⟩
    · exact ⟨_, _, _, rfl⟩
    · exact ⟨_, .equal, _, rfl⟩
  have hkept : ∀ o ∈ bounded, ∀ h, o ≠ .remove h := by
    intro o ho
    simp only [bounded, List.mem_cons, List.not_mem_nil, or_false] at ho
    rcases ho with rfl | rfl | rfl <;> exact fun _ => nofun
  have hheld : (((ofConfig ⟨0, true, 100⟩).run bounded).state.constraints.get?
      ⟨.ofIndex .slack false 0, none⟩).any (fun r => r.constraint =
        .ofFormulas (.var (.external 0)) .greaterOrEqual (.number 1) ∧ r.strength.isRequired) := by
    decide +kernel
  obtain ⟨⟨c, w⟩, hheld, hr⟩ := (Option.any_eq_true _ _).mp hheld
  obtain ⟨rfl, hw⟩ := of_decide_eq_true hr
  have h := @run_insert_duplicate _ ⟨0, true, 100⟩ bounded _ _ w .required rfl hos hkept rfl
    (by decide +kernel) (by decide +kernel) hheld hw (by decide +kernel)
  rw [if_pos (by decide +kernel)] at h
  exact ⟨by decide +kernel, h⟩

/-- What has to hold of one variable. -/
def fastened : Constraint Rat := (Variable.external 1).heldAt 3

/-- A variable is fastened, and two targets for another one need a pivot that there is no budget
for. -/
def stalled : List (Operation Rat) :=
  [.insert fastened .required, .insert ((Variable.external 0).heldAt 0) .weak,
    .insert ((Variable.external 0).heldAt 5) .strong]

/-- The constraint on the fastened variable is inserted over and over. -/
def repeated (n : Nat) : List (Operation Rat) := .replicate (n + 1) (.insert fastened .required)

/-- Every insertion of the repeated constraint succeeds and uses up a symbol. -/
theorem working_run_repeated {n : Nat} (hn : n ≤ Key.maxIndex) :
    ((ofConfig ⟨0, true, 100⟩).run (repeated n)).Working ⟨0, true, 100⟩ ∧
      ((ofConfig ⟨0, true, 100⟩).run (repeated n)).batch = none ∧
      ((ofConfig ⟨0, true, 100⟩).run (repeated n)).state.tableau.nextId = n + 1 ∧
      ∃ h, ((ofConfig ⟨0, true, 100⟩).run (repeated n)).state.constraints.get? h =
        some ⟨fastened, .required⟩ := by
  have hw : (Strength.required : Strength Rat).isRequired = true := by decide +kernel
  induction n with
  | zero =>
    have hworking : (ofConfig ⟨0, true, 100⟩ : Solver Rat).Working ⟨0, true, 100⟩ :=
      working_ofConfig rfl
    have hok : ((ofConfig ⟨0, true, 100⟩ : Solver Rat).step
        (.insert fastened .required)).1.isOk = true := by
      decide +kernel
    rcases hworking.step_insert_cases (c := fastened) (Variable.overLayout_heldAt _ _)
        Strength.required_nonneg with
      ⟨h, -, hworking', hbatch, -, -, t, ht⟩ | ⟨cause, hcause, -⟩
    · refine ⟨hworking', hbatch, by decide +kernel, h, ?_⟩
      show ((ofConfig ⟨0, true, 100⟩).step (.insert fastened .required)).2.state.constraints.get? h = _
      rw [ht, State.get?_register, if_pos rfl]
    · rw [hcause] at hok
      cases hok
  | succ n ih =>
    obtain ⟨hworking, hbatch, hid, h, hheld⟩ := ih (Nat.le_of_succ_le hn)
    obtain ⟨h', -, hworking', hbatch', habsorbs, -, t, ht⟩ :=
      hworking.step_insert_duplicate hbatch hheld hw hw (hid.le.trans hn)
    have hrun : (ofConfig ⟨0, true, 100⟩).run (repeated (n + 1)) =
        (((ofConfig ⟨0, true, 100⟩).run (repeated n)).step (.insert fastened .required)).2 := by
      rw [repeated, List.replicate_succ', run_append]
      rfl
    rw [hrun]
    refine ⟨hworking', hbatch', habsorbs.nextId.trans (congrArg (· + 1) hid), h', ?_⟩
    rw [ht, State.get?_register, if_pos rfl]

/-- A poisoned solver whose objective has been left undone refuses a constraint that it holds, and
so does a solver that has no symbols left. -/
theorem run_insert_duplicate_refused :
    (((ofConfig ⟨0, false, 0⟩).run stalled).isBatching = false ∧
      (∃ w, ((ofConfig ⟨0, false, 0⟩).run stalled).state.constraints.get?
        ⟨.ofIndex .dummy false 0, none⟩ = some ⟨fastened, w⟩ ∧ w.isRequired = true) ∧
      (((ofConfig ⟨0, false, 0⟩).run stalled).step (.insert fastened .required)).1 =
        .error (.iterationLimit 0)) ∧
    ((ofConfig ⟨0, true, 100⟩).run (repeated Key.maxIndex)).isBatching = false ∧
      (∃ h, ((ofConfig ⟨0, true, 100⟩).run (repeated Key.maxIndex)).state.constraints.get? h =
        some ⟨fastened, .required⟩) ∧
      (((ofConfig ⟨0, true, 100⟩).run (repeated Key.maxIndex)).step (.insert fastened .required)).1 =
        .error (.indexSpaceExhausted (2 ^ 27)) := by
  constructor
  · have hheld : (((ofConfig ⟨0, false, 0⟩).run stalled).state.constraints.get?
        ⟨.ofIndex .dummy false 0, none⟩).any (fun r => r.constraint = fastened ∧
          r.strength.isRequired) := by
      decide +kernel
    obtain ⟨⟨c, w⟩, hheld, hr⟩ := (Option.any_eq_true _ _).mp hheld
    obtain ⟨rfl, hw⟩ := of_decide_eq_true hr
    exact ⟨by decide +kernel, ⟨w, hheld, hw⟩, by decide +kernel⟩
  · have hw : (Strength.required : Strength Rat).isRequired = true := by decide +kernel
    have hlast : Key.maxIndex + 1 = 2 ^ 27 := by decide +kernel
    obtain ⟨hworking, hbatch, hid, h, hheld⟩ := working_run_repeated (le_refl Key.maxIndex)
    have hexhausted := hworking.step_insert_exhausted hbatch hheld hw hw
      ((Nat.lt_succ_self _).trans_eq hid.symm)
    rw [hid, hlast] at hexhausted
    exact ⟨by rw [isBatching, hbatch, Option.isSome_none], ⟨h, hheld⟩, hexhausted⟩

end Solver

end Cassowary
