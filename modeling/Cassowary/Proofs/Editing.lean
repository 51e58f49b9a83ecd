import Cassowary.Proofs.Canonical
import Cassowary.Proofs.Presence
import Cassowary.Proofs.Unmoved

/-!
# Targets where variables already are

A variable becomes an edit variable by a constraint that holds it where it is. Its weight may make
any number of coefficients of the objective negative, and then there are pivots. But no values of
the variables cost less than those that the solver had: they were optimal before, and of the new
constraint nothing is violated. So all the pivots are degenerate.

The same goes for any equality that may be violated and that no solution violates less. Where a
variable is none that a solver finds values for, the constraint that holds it says something false
of a number.

## Main results

* `Tableau.Sound.ensures_insertRow_soft` — how the equation of such a constraint is installed
* `Tableau.Sound.ensures_addConstraint_soft` — the insertion moves no layout variable
* `Solver.read_startEdit` — what is told of variables when one becomes an edit variable
-/

namespace Cassowary

open Attempt

/-- Where its symbols are zero, the equation of a constraint says that its value is. -/
theorem Constraint.equation_of_symbols {c : Constraint Rat} {handle : Handle}
    {v : Assignment Rat} (hsymbols : ∀ k ∈ handle.markers, v k = 0) :
    c.equation handle v = c.value v := by
  have hother : handle.other.elim 0 v = 0 := by
    cases hother : handle.other with
    | none => rfl
    | some k => exact hsymbols k (Handle.mem_markers.mpr (.inr hother))
  rw [Constraint.equation, hsymbols _ List.mem_cons_self, hother, add_zero, sub_zero]

namespace Tableau

variable {t : Tableau Rat} {S : Assignment Rat → Prop} {cost f : Assignment Rat → Rat}
  {row : Row Rat} {k : Key} {handle : Handle} {c : Constraint Rat} {w : Strength Rat} {x : Rat}
  {u v : Assignment Rat} {quiet : Prop}

/-- The equation of a constraint that may be violated is solved for a layout variable, or for one of
the symbols of the constraint. -/
theorem Sound.ensures_insertRow_soft (h : t.Sound True quiet S cost) (hdeferred : t.deferred = false)
    (hrow : row.Encodes t S f) (hmarks : handle.Marks S cost f) (hother : handle.other ≠ none) :
    Ensures (insertRow row handle) t
      (fun _ t' => ∃ k, (k.unrestricted = true ∨ k ∈ handle.markers ∧ k.pivotable = true) ∧
        row.coefficientFor k ≠ 0 ∧ t' = t.install row k ∧
        t'.Inserted True quiet (fun v => S v ∧ f v = 0) cost handle) fun _ _ => False := by
  have hr := h.prepared.represents
  have hsome : row.subject? handle ≠ none := fun hsubject =>
    hother (hmarks.dummy_of_subject?_eq_none hrow hr hsubject).2.1
  refine ensures_insertRow_of (ensures_prepareFor_of_not_deferred hdeferred row handle) ?_
    (fun _ _ h hsubject => absurd (h.1 ▸ hsubject) hsome)
    (fun _ _ h hsubject => absurd (h.1 ▸ hsubject) hsome)
    fun _ _ h hsubject => absurd (h.1 ▸ hsubject) hsome
  rintro _ _ subject ⟨rfl, rfl⟩ hsubject
  have hsuits := Row.subject?_suits hrow.proper hsubject
  cases subject with
  | free k => exact ⟨k, .inl hsuits.1, hsuits.2, rfl, h.install_free hrow hsuits.1 hsuits.2⟩
  | feasible k =>
    obtain ⟨hmem, hpivotable, hneg⟩ := hsuits.1
    exact ⟨k, .inr ⟨hmem, hpivotable⟩, hneg.ne, rfl, h.install_feasible hrow hmarks hsuits⟩
  | infeasible k => exact absurd (hmarks.other_eq_none hrow hr hsuits.2.1) hother

/-- When the equation of a constraint is installed that no solution violates less than the basic one
does, one of its symbols takes up the violation, and nothing else moves. -/
theorem Represents.basicSolution_install_soft (h : t.Represents S cost)
    (hrow : row.Encodes t S (c.equation handle)) (hmarks : handle.Marks S cost (c.equation handle))
    (hleast : ∀ v, S v → |c.value t.basicSolution| ≤ |c.value v|)
    (hk : k.unrestricted = true ∨ k ∈ handle.markers) (hcoefficient : row.coefficientFor k ≠ 0)
    (hsolution : S (t.install row k).basicSolution)
    (hequation : c.equation handle (t.install row k).basicSolution = 0) :
    ∃ k' ∈ handle.markers, ∃ x,
      (t.install row k).basicSolution = Function.update t.basicSolution k' x := by
  rcases hk with hk | hk
  · have hnone : ∀ k' ∈ handle.markers, t.rows.get? k' = none := fun k' hk' =>
      isBasic_eq_false_iff.mp (h.isBasic_eq_false (hmarks.ignores k' hk'))
    -- With the layout variable, a solution is found that does not violate the constraint at all
    have hsymbols : ∀ k' ∈ handle.markers, (t.install row k).basicSolution k' = 0 := by
      intro k' hk'
      have hne : k' ≠ k := by
        rintro rfl
        obtain ⟨relation, required, hfits⟩ := hmarks.fits
        cases hk.symm.trans (hfits.unrestricted hk')
      exact basicSolution_of_get?_eq_none (by
        rw [Tableau.install, get?_enter, if_neg hne, hnone k' hk']
        rfl)
    have hmet : c.value t.basicSolution = 0 := by
      have hle := hleast _ hsolution
      rw [Constraint.equation_of_symbols hsymbols] at hequation
      rwa [hequation, abs_zero, abs_nonpos_iff] at hle
    have hzero : row.constant = 0 := by
      obtain ⟨sign, -, hvalue⟩ := hrow.value
      have hstart := hvalue _ (h.solves_complete fun _ => 0)
      rwa [evaluate_complete hrow.over_tableau hrow.proper, Row.evaluate_zero, ← basicSolution,
        Constraint.equation_of_symbols fun k' hk' => basicSolution_of_get?_eq_none (hnone k' hk'),
        hmet, mul_zero] at hstart
    have hbasic : t.isBasic k = false := Bool.eq_false_iff.mpr fun hb =>
      hcoefficient (hrow.over_tableau.coefficientFor_basic hrow.proper hb)
    refine ⟨handle.marker, List.mem_cons_self, t.basicSolution handle.marker, ?_⟩
    rw [basicSolution_install_of_zero hbasic hcoefficient hzero, Function.update_eq_self]
  · exact ⟨k, hk, _, basicSolution_install h (hmarks.ignores k hk) hcoefficient⟩

/-- If an assignment that meets the equation comes from the basic solution by moving one symbol of
the constraint, and no solution violates the constraint less, then no attained solution costs
less. -/
theorem Sound.cost_update_le (h : t.Sound True quiet S cost) (hdeferred : t.deferred = false)
    (hignores : ∀ k ∈ handle.markers, Ignores S k ∧ CostIgnores cost k) (hc : c.OverLayout)
    (hrelation : c.relation = .equal) (hfits : handle.Fits c.relation false)
    (hnodup : handle.markers.Nodup) (hw : 0 ≤ w.value)
    (hleast : ∀ v, S v → |c.value t.basicSolution| ≤ |c.value v|) (hk : k ∈ handle.markers)
    (hu : u = Function.update t.basicSolution k x) (hnonneg : u.Nonnegative)
    (hequation : c.equation handle u = 0) (hv : S v) (hvalue : c.equation handle v = 0)
    (hattains : t.Attains v) : cost u + handle.price w u ≤ cost v + handle.price w v := by
  have hr := h.prepared.represents
  have hviolation : ∀ v, c.violation v = |c.value v| := fun v => by
    rw [Constraint.violation, hrelation]
    exact Scalar.magnitude_rat _
  have hzero : ∀ k' ∈ handle.markers, k' ≠ k → u k' = 0 := fun k' hk' hne => by
    rw [hu, Function.update_of_ne hne]
    exact basicSolution_of_get?_eq_none (isBasic_eq_false_iff.mp
      (hr.isBasic_eq_false (hignores k' hk').1))
  have hprice : handle.price w u = w.value * |c.value t.basicSolution| := by
    rw [hfits.price_eq_of_eq_zero hequation hnonneg fun e he => ?_, hviolation, hu,
      Constraint.value_update hc (hfits.unrestricted hk)]
    have hmem := Handle.mem_markers.mpr (.inr he)
    by_cases hmarker : handle.marker = k
    · refine .inr (hzero e hmem fun heq => ?_)
      rw [Handle.markers, he, heq, hmarker] at hnodup
      simp at hnodup
    · exact .inl (hzero _ List.mem_cons_self hmarker)
  have hcost : cost u = cost t.basicSolution := by rw [hu, (hignores k hk).2]
  calc cost u + handle.price w u
      = cost t.basicSolution + w.value * |c.value t.basicSolution| := by rw [hcost, hprice]
    _ ≤ cost v + w.value * |c.value v| :=
        add_le_add (hr.cost_basicSolution_le_of_attains h.prepared.canonical.layered
          (h.optimal trivial hdeferred) hv hattains) (mul_le_mul_of_nonneg_left (hleast v hv) hw)
    _ ≤ cost v + handle.price w v := by
        rw [← hviolation]
        exact add_le_add_right (hfits.violation_le_price hvalue hw hattains.nonnegative) _

/-- An equality that may be violated, and that no solution violates less, is taken in without a
change of the layout variables. -/
theorem Sound.ensures_addConstraint_soft (h : t.Sound True quiet S cost)
    (hdeferred : t.deferred = false) (hnew : ∀ k, ¬ t.Known k → CostIgnores cost k)
    (hc : c.OverLayout) (hrelation : c.relation = .equal) (hw : 0 ≤ w.value)
    (hsoft : w.isRequired = false)
    (hleast : ∀ v, S v → |c.value t.basicSolution| ≤ |c.value v|) :
    Ensures (addConstraint c w false) t
      (fun _ t' => ∀ k, k.unrestricted = true → t'.basicSolution k = t.basicSolution k)
      fun _ _ => True := by
  have hr := h.prepared.represents
  have hcreated := ((ensures_createRow h hc fun _ => hw).and (ensures_createRow_rows c w t)).and
    (ensures_createRow_counts c w t)
  unfold addConstraint
  rw [ensures_bind]
  refine hcreated.imp ?_ fun _ _ _ => trivial
  rintro ⟨row, handle⟩ t₁ ⟨⟨⟨hfits, hfresh, h₁, hrow⟩, hrows, -⟩, -, hdeferred₁⟩
  dsimp only at hfits hfresh h₁ hrow ⊢
  rw [hsoft] at hfits
  have hsame : t₁.basicSolution = t.basicSolution := basicSolution_congr hrows
  have hmarks := hr.marks hnew hc w hfits hfresh
  have hignores : ∀ k ∈ handle.markers, Ignores S k ∧ CostIgnores cost k := fun k hk =>
    ⟨hmarks.ignores k hk, hnew k fun hknown =>
      absurd (hknown (hfresh.internal k hk)) (not_lt.mpr (hfresh.le k hk))⟩
  have hother : handle.other ≠ none := fun hnone => by
    cases hfits.required_of_other hnone
  rw [ensures_bind]
  refine (h₁.ensures_insertRow_soft (hdeferred₁.trans hdeferred) hrow hmarks hother).imp ?_
    fun _ _ => False.elim
  rintro _ _ ⟨k, hk, hcoefficient, rfl, hinserted⟩
  obtain ⟨hsolution, hequation⟩ :=
    hinserted.prepared.represents.solves_complete fun _ => 0
  obtain ⟨k', hk', x, hmoved⟩ := h₁.prepared.represents.basicSolution_install_soft hrow hmarks
    (hsame ▸ hleast) (hk.imp_right And.left) hcoefficient hsolution hequation
  have hfeasible := hinserted.feasible trivial hother
  have hbasic : ∀ k₀ : Key, k₀.unrestricted = false → k₀.pivotable = false →
      (t₁.install row k).isBasic k₀ = true → t.isBasic k₀ = true := by
    intro k₀ hrestricted hfixed hb
    rcases isBasic_enter_iff.mp hb with rfl | hb
    · rcases hk with hk | ⟨-, hk⟩
      · cases hk.symm.trans hrestricted
      · cases hk.symm.trans hfixed
    · rwa [isBasic, hrows] at hb
  have hunmoved := ensures_solve_unmoved hinserted.prepared trivial hfeasible fun v hv hattains =>
    h.cost_update_le hdeferred hignores hc hrelation hfits hfresh.nodup hw hleast hk'
      (hmoved.trans (by rw [hsame])) hfeasible.basicSolution_nonnegative hequation hv.1 hv.2
      (hattains.mono hbasic)
  rw [ensures_bind]
  refine hunmoved.imp (fun _ t' ht' k₀ hk₀ => ?_) fun _ _ => id
  have hne : k₀ ≠ k' := by
    rintro rfl
    cases hk₀.symm.trans (hfits.unrestricted hk')
  rw [ht', hmoved, Function.update_of_ne hne, hsame]

end Tableau

theorem Variable.key_injective : Function.Injective Variable.key := fun x y h => by
  cases x
  cases y
  cases h
  rfl

/-- A target mentions its variable, if that is a layout variable. -/
theorem Variable.mem_keys_heldAt {x : Variable} {target : Rat} {k : Key} :
    k ∈ (x.heldAt target).keys ↔ k = x.key ∧ k.unrestricted = true := by
  have hcoefficient : ∀ k, (Formula.var x : Formula Rat).linear.coefficientFor k -
      (Formula.number target).linear.coefficientFor k = if x.key = k then 1 else 0 := fun k => by
    simp [Formula.linear, LinearForm.ofTerm, LinearForm.ofNumber, LinearForm.coefficientFor,
      Term.unit]
  have hterm : ∀ t : Term Key Rat, t ∈ (x.heldAt target).terms ↔ t.var.unrestricted = true ∧
      t.coefficient = (if x.key = t.var then 1 else 0) ∧ Constraint.zeroTerm < |t.coefficient| :=
    fun t => by
      rw [← hcoefficient]
      exact Constraint.mem_ordered_gathered
  rw [Constraint.keys, List.mem_map]
  constructor
  · rintro ⟨t, ht, rfl⟩
    obtain ⟨hfree, hvalue, hsize⟩ := (hterm t).mp ht
    refine ⟨?_, hfree⟩
    by_contra hne
    rw [if_neg (Ne.symm hne)] at hvalue
    rw [hvalue, abs_zero] at hsize
    norm_num [Constraint.zeroTerm] at hsize
  · rintro ⟨rfl, hfree⟩
    refine ⟨⟨x.key, 1⟩, (hterm _).mpr ⟨hfree, (if_pos rfl).symm, ?_⟩, rfl⟩
    norm_num [Constraint.zeroTerm]

namespace Solver

variable {s s' : Solver Rat} {config : Config Rat} {os : List (Operation Rat)} {x y : Variable}
  {c : Constraint Rat} {w : Strength Rat} {quiet : Prop}

/-- Nothing violates the target of a variable less that starts where the variable is. -/
theorem value_heldAt_le (hpoisoned : s.poisoned = false) (x : Variable) (v : Assignment Rat) :
    |(x.heldAt ((s.read x).getD 0)).value s.state.tableau.basicSolution| ≤
      |(x.heldAt ((s.read x).getD 0)).value v| := by
  have hvalue : ∀ v, (x.heldAt ((s.read x).getD 0)).value v = v.valueOf x - (s.read x).getD 0 :=
    fun _ => Constraint.value_ofFormulas_equal (by simp) (by simp)
  rw [hvalue, hvalue, Assignment.valueOf, Assignment.valueOf]
  split
  · exact le_rfl
  · next hx =>
    have hfree := x.mentionable.resolve_right hx
    have hkey : Variable.ofKey? x.key = some x := dif_pos (.inl hfree)
    have hread : s.state.tableau.basicSolution x.key = (s.read x).getD 0 := by
      rw [← assignment_eq hpoisoned hfree, assignment, hkey]
    rw [hread, sub_self, abs_zero]
    exact abs_nonneg _

/-- An equality that may be violated, and that no values violate less, is inserted without a change
of the layout variables. -/
theorem Sound.ensures_insert_soft (hs : s.Sound True quiet) (hrest : s.AtRest config)
    (hbatch : s.batch = none) (hc : c.OverLayout) (hrelation : c.relation = .equal)
    (hw : 0 ≤ w.value) (hsoft : w.isRequired = false)
    (hleast : ∀ v, |c.value s.state.tableau.basicSolution| ≤ |c.value v|) :
    Ensures (insert c w) s (fun _ s' => ∀ k, k.unrestricted = true →
      s'.state.tableau.basicSolution k = s.state.tableau.basicSolution k) fun _ _ => True := by
  have hbatching : s.isBatching = false := by rw [isBatching, hbatch, Option.isSome_none]
  have hadded : ∀ t, t = s.state.tableau ∨ t = s.state.tableau.begin →
      Ensures (Tableau.addConstraint c w s.isBatching) t (fun _ t' => ∀ k, k.unrestricted = true →
        t'.basicSolution k = s.state.tableau.basicSolution k) fun _ _ => True := by
    intro t ht
    obtain ⟨hsound, hdeferred, hknown⟩ := hs.noted hbatch ht
    have hsame : t.basicSolution = s.state.tableau.basicSolution := by
      rcases ht with rfl | rfl <;> rfl
    rw [hbatching, ← hsame]
    exact hsound.ensures_addConstraint_soft hdeferred hknown hc hrelation hw hsoft
      fun v _ => hsame ▸ hleast v
  refine ensures_insert_of ((ensures_guarded_of (fun _ => Tableau.keeps_addConstraint c w _) hrest
    hadded).imp ?_ fun _ _ _ => trivial)
  rintro h _ ⟨t, ht, rfl⟩
  exact ht

/-- A solver has taken in a constraint on a variable without moving a layout variable. -/
structure Extends (s s' : Solver Rat) (x : Variable) : Prop where
  poisoned : s'.poisoned = false
  value : ∀ k, k.unrestricted = true →
    s'.state.tableau.basicSolution k = s.state.tableau.basicSolution k
  mentioned : ∀ k, s'.state.Mentioned k ↔ k = x.key ∧ k.unrestricted = true ∨ s.state.Mentioned k

/-- A variable becomes an edit variable where it is. -/
theorem Sound.ensures_startEdit_extends (hs : s.Sound True quiet) (hrest : s.AtRest config)
    (hpoisoned : s.poisoned = false) (hbatch : s.batch = none) (hw : 0 ≤ w.value) :
    Ensures (startEdit x w) s (fun _ s' => s.Extends s' x) fun _ _ => True := by
  refine ensures_startEdit_of (fun _ => trivial) (fun _ => trivial) fun _ hsoft =>
    ((ensures_insert_sound hrest hs (x.overLayout_heldAt _) fun _ => hw).and
      (hs.ensures_insert_soft hrest hbatch (x.overLayout_heldAt _) (x.relation_heldAt _) hw
        hsoft (value_heldAt_le hpoisoned x))).imp ?_ fun _ _ _ => trivial
  rintro h s' ⟨⟨hpoisoned', -, ⟨hnew, -⟩, hconstraints, -⟩, hunmoved⟩
  refine ⟨hpoisoned'.trans hpoisoned, hunmoved, fun k => ?_⟩
  rw [← @Variable.mem_keys_heldAt x ((s.read x).getD 0), ← State.mentioned_register (r := ⟨_, w⟩) hnew,
    State.Mentioned, State.Mentioned, ← hconstraints]

/-- In exact arithmetic, after any run that leaves the solver with values and no batch open,
removals included: a variable that becomes an edit variable moves nothing, however many pivots this
takes. Every variable is told as before, but for the edit variable itself: if it was not found and
is a layout variable, it is zero from then on. -/
theorem read_startEdit (hepsilon : config.epsilon = 0)
    (hos : ∀ o ∈ os, o.Reduced ∧ o.Lawful True) (hrun : (ofConfig config).run os = s)
    (hpoisoned : s.poisoned = false) (hbatch : s.batch = none) (hw : 0 ≤ w.value) {answer : Answer}
    (hstep : s.step (.startEdit x w) = (.ok answer, s')) (y : Variable) :
    s'.read y =
      if y = x ∧ x.key.unrestricted = true ∧ s.read x = .notFound then .value 0 else s.read y := by
  have hlawful : ∀ o ∈ os ++ [.startEdit x w], o.Reduced ∧ o.Lawful True := by
    intro o ho
    rcases List.mem_append.mp ho with ho | ho
    · exact hos o ho
    · rw [List.mem_singleton.mp ho]
      exact ⟨trivial, fun _ => hw⟩
  have hrun' : (ofConfig config).run (os ++ [.startEdit x w]) = s' := by
    rw [run_append, hrun]
    exact congrArg Prod.snd hstep
  have horderly : s.Orderly config := by
    subst hrun
    exact (orderly_ofConfig config).run fun o ho => (hos o ho).1
  have horderly' : s'.Orderly config := by
    subst hrun'
    exact (orderly_ofConfig config).run fun o ho => (hlawful o ho).1
  have hsound : s.Sound True False := by
    subst hrun
    exact sound_run (fun _ => hepsilon) (fun o ho => (hos o ho).2) (fun _ => nofun) hpoisoned
  have hperform : Ensures (perform (.startEdit x w)) s (fun _ s' => s.Extends s' x)
      fun _ _ => True :=
    ensures_bind _ |>.mpr ((hsound.ensures_startEdit_extends horderly.rest hpoisoned hbatch hw).imp
      (fun _ _ h => h) fun _ _ => id)
  have hextends : s.Extends s' x := by
    have hextends := hperform.of_ok (congrArg Prod.fst hstep)
    rwa [show ((perform (.startEdit x w)).outcome s).2 = s' from congrArg Prod.snd hstep] at hextends
  have hsound' : s'.Sound True False := by
    subst hrun'
    exact sound_run (fun _ => hepsilon) (fun o ho => (hlawful o ho).2) (fun _ => nofun)
      hextends.poisoned
  have hread := hsound.read_eq horderly.balanced.state hpoisoned
  rw [hsound'.read_eq horderly'.balanced.state hextends.poisoned]
  by_cases hy : s.state.Mentioned y.key
  · have hfound : ¬ (y = x ∧ x.key.unrestricted = true ∧ s.read x = .notFound) := by
      rintro ⟨rfl, -, hnone⟩
      rw [hread, if_pos hy] at hnone
      cases hnone
    rw [if_pos ((hextends.mentioned _).mpr (.inr hy)), if_neg hfound, hread, if_pos hy,
      hextends.value _ (hsound.state.tidy.unrestricted_of_mentioned hy)]
  · by_cases hx : y = x ∧ x.key.unrestricted = true
    · obtain ⟨rfl, hfree⟩ := hx
      have hzero : s.state.tableau.basicSolution y.key = 0 :=
        Tableau.basicSolution_of_get?_eq_none (Option.eq_none_iff_forall_ne_some.mpr fun row hrow =>
          hy (hsound.state.mentioned_of_row hrow))
      have hnone : s.read y = .notFound := by rw [hread, if_neg hy]
      rw [if_pos ((hextends.mentioned _).mpr (.inl ⟨rfl, hfree⟩)), if_pos ⟨rfl, hfree, hnone⟩,
        hextends.value _ hfree, hzero]
    · have hnot : ¬ s'.state.Mentioned y.key := fun hk => by
        rcases (hextends.mentioned _).mp hk with ⟨hkey, hfree⟩ | hk
        · exact hx ⟨Variable.key_injective hkey, hkey ▸ hfree⟩
        · exact hy hk
      rw [if_neg hnot, if_neg fun h => hx ⟨h.1, h.2.1⟩, hread, if_neg hy]

/-- A sum of two variables is fixed, and a bound on the first one keeps the second one from its
target. A target for the first one has gone again. -/
def pulled : List (Operation Rat) :=
  [.insert (.ofFormulas (.add (.var (.external 0)) (.var (.external 1))) .equal (.number 10))
      .required,
    .insert (.ofFormulas (.var (.external 0)) .greaterOrEqual (.number 2)) .required,
    .insert ((Variable.external 1).heldAt 20) .weak, .insert ((Variable.external 0).heldAt 7) .strong,
    .remove ⟨.ofIndex .error false 4, some (.ofIndex .error false 5)⟩]

/-- The second variable is held where it is more strongly than it is drawn to its target. This takes
a pivot, and moves nothing. -/
theorem read_startEdit_pulled :
    ((ofConfig ⟨0, true, 100⟩).run pulled).read (.external 1) = .value 8 ∧
    ∃ s', ((ofConfig ⟨0, true, 100⟩).run pulled).step (.startEdit (.external 1) .strong) =
        (.ok .done, s') ∧
      s'.stats.pivots = ((ofConfig ⟨0, true, 100⟩).run pulled).stats.pivots + 1 ∧
      ∀ y, s'.read y = ((ofConfig ⟨0, true, 100⟩).run pulled).read y := by
  have hos : ∀ o ∈ pulled, o.Reduced ∧ o.Lawful True := by
    intro o ho
    simp only [pulled, List.mem_cons, List.not_mem_nil, or_false] at ho
    rcases ho with rfl | rfl | rfl | rfl | rfl
    · exact ⟨⟨_, _, _, rfl⟩, Constraint.overLayout_reduce _ _ _, fun _ => by decide +kernel⟩
    · exact ⟨⟨_, _, _, rfl⟩, Constraint.overLayout_reduce _ _ _, fun _ => by decide +kernel⟩
    · exact ⟨⟨_, .equal, _, rfl⟩, Variable.overLayout_heldAt _ _, fun _ => by decide +kernel⟩
    · exact ⟨⟨_, .equal, _, rfl⟩, Variable.overLayout_heldAt _ _, fun _ => by decide +kernel⟩
    · exact ⟨trivial, trivial⟩
  have hvalue : ((ofConfig ⟨0, true, 100⟩).run pulled).read (.external 1) = .value 8 := by
    decide +kernel
  have hdone : (((ofConfig ⟨0, true, 100⟩).run pulled).step
      (.startEdit (.external 1) .strong)).1 = .ok .done := by
    decide +kernel
  refine ⟨hvalue, _, Prod.ext hdone rfl, by decide +kernel, fun y => ?_⟩
  rw [@read_startEdit _ _ ⟨0, true, 100⟩ pulled (.external 1) .strong rfl hos rfl (by decide +kernel)
    (by decide +kernel) (by decide +kernel) _ (Prod.ext hdone rfl), if_neg]
  rintro ⟨-, -, hnone⟩
  cases hvalue.symm.trans hnone

/-- The number one, as a variable. -/
def unit : Variable := ⟨.ofIndex .constant false 0, .inr rfl⟩

/-- The number one, as a variable, may become an edit variable, and is found neither before nor
after. -/
theorem read_startEdit_unit :
    (ofConfig ⟨(0 : Rat), true, 100⟩).poisoned = false ∧
    (ofConfig ⟨(0 : Rat), true, 100⟩).isBatching = false ∧
    (ofConfig ⟨(0 : Rat), true, 100⟩).read unit = .notFound ∧
    ((ofConfig ⟨(0 : Rat), true, 100⟩).step (.startEdit unit .weak)).1 = .ok .done ∧
    ((ofConfig ⟨(0 : Rat), true, 100⟩).step (.startEdit unit .weak)).2.read unit = .notFound := by
  refine ⟨?_, ?_, ?_, ?_, ?_⟩ <;> decide +kernel

end Solver

end Cassowary
