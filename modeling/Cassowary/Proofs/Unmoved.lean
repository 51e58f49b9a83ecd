import Cassowary.Proofs.Optimality

/-!
# Insertions that move nothing

A tableau stands for the values where its variables that are not basic are zero. An equation that
holds there already, or one with a new symbol that takes up what is missing, can be installed
without a change of these values.

If the values are then still as good as any, pivots do not move them either. A pivot that lets a
variable grow at all makes the objective smaller, so in such a tableau the entering variable stays
at zero, and only the basis changes.

## Main definitions

* `Tableau.Attains` — values that symbols may have when those that never enter keep their place

## Main results

* `Tableau.basicSolution_install`, `Tableau.basicSolution_install_of_zero` — the values after a row
  has been installed
* `Tableau.Prepared.solve_eq` — where there is nothing to do, solving does nothing
* `Tableau.Prepared.basicSolution_pivot` — a pivot from the least cost moves nothing
* `Tableau.ensures_solve_unmoved` — nor does solving
-/

namespace Cassowary

open Attempt

namespace Tableau

variable {t t' : Tableau Rat} {S : Assignment Rat → Prop} {cost : Assignment Rat → Rat}
  {row : Row Rat} {k entering leaving : Key} {v : Assignment Rat} {exact quiet : Prop}

theorem basicSolution_congr (hrows : t'.rows = t.rows) : t'.basicSolution = t.basicSolution := by
  funext k
  rw [basicSolution, basicSolution, complete, complete, hrows]

/-! ## Installing a row -/

/-- A row whose constant is zero for its new key moves nothing. -/
theorem basicSolution_install_of_zero (hbasic : t.isBasic k = false)
    (hk : row.coefficientFor k ≠ 0) (hzero : row.constant = 0) :
    (t.install row k).basicSolution = t.basicSolution := by
  have hconstant : (row.solveFor k).constant = 0 := by
    rw [Row.constant_solveFor hk, hzero, neg_zero, zero_div]
  funext k'
  by_cases hk' : k' = k
  · subst hk'
    rw [basicSolution_of_get? (by rw [install, get?_enter, if_pos rfl]), hconstant,
      basicSolution_of_get?_eq_none (isBasic_eq_false_iff.mp hbasic)]
  · cases hrow : t.rows.get? k' with
    | some old =>
      rw [basicSolution_of_get? (by rw [install, get?_enter, if_neg hk', hrow]; rfl),
        basicSolution_of_get? hrow, Row.constant_substitute, hconstant, mul_zero,
        add_zero]
    | none =>
      rw [basicSolution_of_get?_eq_none (by rw [install, get?_enter, if_neg hk', hrow]; rfl),
        basicSolution_of_get?_eq_none hrow]

/-- A row for a symbol that nothing depends on gives that symbol a value, and no other one. -/
theorem basicSolution_install (h : t.Represents S cost) (hignores : Ignores S k)
    (hk : row.coefficientFor k ≠ 0) :
    (t.install row k).basicSolution =
      Function.update t.basicSolution k (-row.constant / row.coefficientFor k) := by
  funext k'
  by_cases hk' : k' = k
  · subst hk'
    rw [basicSolution_of_get? (by rw [install, get?_enter, if_pos rfl]), Row.constant_solveFor hk,
      Function.update_self]
  · rw [Function.update_of_ne hk']
    cases hrow : t.rows.get? k' with
    | some old =>
      rw [basicSolution_of_get? (by rw [install, get?_enter, if_neg hk', hrow]; rfl),
        basicSolution_of_get? hrow, Row.constant_substitute,
        h.coefficientFor_eq_zero hignores hrow, zero_mul, add_zero]
    | none =>
      rw [basicSolution_of_get?_eq_none (by rw [install, get?_enter, if_neg hk', hrow]; rfl),
        basicSolution_of_get?_eq_none hrow]

/-- An objective that does not mention the new key is kept. -/
theorem minimal_install (h : t.Represents S cost) (hminimal : t.objective.Minimal)
    (hzero : t.objective.coefficientFor k = 0) : (t.install row k).objective.Minimal := by
  have hobjective : (t.install row k).objective =
      t.objective.substitute (.unit k) (row.solveFor k) :=
    Option.some_inj.mp (targetRow_enter t k (row.solveFor k) .objective)
  intro k' hk'
  rw [hobjective, Row.coefficientFor_substitute h.proper_objective, hzero, zero_mul, add_zero]
  split
  · exact le_rfl
  · exact hminimal k' hk'

/-! ## Solving where nothing is to be done -/

/-- Where nothing has been put off, there is nothing to catch up on. -/
theorem ensures_prepareFor_of_not_deferred (hdeferred : t.deferred = false) (row : Row Rat)
    (handle : Handle) :
    Ensures (prepareFor row handle) t (fun row' t' => row' = row ∧ t' = t) fun _ _ => False :=
  ensures_prepareFor_of (fun _ => ⟨rfl, rfl⟩) fun htrue =>
    absurd (htrue.symm.trans hdeferred) nofun

/-- Where all rows are feasible, the dual method empties the queue. -/
theorem Prepared.dualOptimize_eq (h : t.Prepared exact quiet S cost) (hexact : exact)
    (hfeasible : t.Feasible) : dualOptimize t = .ok () { t with infeasible := [] } := by
  refine iterate_of_finished ?_ _ _
  rw [dualRule, h.nextViolated_eq_none hexact hfeasible]

/-- Where all rows are feasible and the objective is optimal, solving does nothing but empty the
queue. -/
theorem Prepared.solve_eq (h : t.Prepared exact quiet S cost) (hexact : exact)
    (hfeasible : t.Feasible) (hminimal : t.objective.Minimal) :
    solve t = .ok () { t with infeasible := [], deferred := false } := by
  show (optimize .objective >>= fun _ => dualOptimize >>= fun _ => modify _) t = _
  simp only [bind, EStateM.bind, optimize_of_minimal (h.epsilon hexact) hminimal,
    h.dualOptimize_eq hexact hfeasible]
  rfl

/-! ## Pivots from the least cost -/

/-- Values of symbols that are not negative. Those that never enter the basis are zero unless they
are basic. -/
structure Attains (t : Tableau Rat) (v : Assignment Rat) : Prop where
  nonnegative : v.Nonnegative
  eq_zero : ∀ k, k.unrestricted = false → k.pivotable = false → t.isBasic k = false → v k = 0

theorem Feasible.attains (h : t.Feasible) : t.Attains t.basicSolution where
  nonnegative := h.basicSolution_nonnegative
  eq_zero _ _ _ hbasic := basicSolution_of_get?_eq_none (isBasic_eq_false_iff.mp hbasic)

/-- With fewer symbols in the basis that may not enter it, no more solutions are attained. -/
theorem Attains.mono (h : t'.Attains v)
    (hbasic : ∀ k, k.unrestricted = false → k.pivotable = false → t'.isBasic k = true →
      t.isBasic k = true) : t.Attains v where
  nonnegative := h.nonnegative
  eq_zero k hk hfixed hnot := h.eq_zero k hk hfixed <| Bool.eq_false_iff.mpr fun hb => by
    rw [hbasic k hk hfixed hb] at hnot
    cases hnot

/-- A pivot brings no other symbols into the basis than those that may enter. -/
theorem Attains.of_pivot (h : (t.pivot entering leaving).Attains v)
    (hrow : t.rows.get? leaving = some row) (hpivotable : entering.pivotable = true) :
    t.Attains v := by
  refine h.mono fun k _ hfixed hb => ?_
  rcases (isBasic_pivot_iff hrow).mp hb with rfl | ⟨-, hb⟩
  · cases hpivotable.symm.trans hfixed
  · exact hb

/-- An optimal objective is nowhere smaller. -/
theorem Represents.cost_basicSolution_le_of_attains (h : t.Represents S cost) (hlayered : t.Layered)
    (hminimal : t.objective.Minimal) (hv : S v) (hattains : t.Attains v) :
    cost t.basicSolution ≤ cost v := by
  obtain ⟨offset, hoffset⟩ := h.exists_offset
  have hdropped : t.objective.evaluate v =
      t.objective.evaluate fun k => if t.isBasic k then 0 else v k :=
    Row.evaluate_congr fun k hk => by
      rw [if_neg fun hb => hk (h.separated.objective.coefficientFor_basic h.proper_objective hb)]
  have hadmissible : Assignment.Admissible fun k => if t.isBasic k then 0 else v k := by
    constructor
    · intro k hk
      show 0 ≤ if t.isBasic k then 0 else v k
      split
      · exact le_rfl
      · exact hattains.nonnegative k hk
    · intro k hk hfixed
      split
      · rfl
      · next hnot => exact hattains.eq_zero k hk hfixed (Bool.eq_false_iff.mpr hnot)
  have hle := hminimal.constant_le (fun _ hk => hlayered.objective hk) hadmissible
  have hbasic : t.objective.evaluate t.basicSolution = t.objective.constant := by
    rw [basicSolution, evaluate_complete h.separated.objective h.proper_objective, Row.evaluate_zero]
  have hstart := hoffset _ (h.solves_complete fun _ => 0)
  rw [← basicSolution, hbasic] at hstart
  rw [← hstart, ← hoffset v hv, hdropped]
  linarith

/-- A solution is settled by the variables that are not basic. -/
theorem Represents.eq_complete (h : t.Represents S cost) (hv : S v) {w : Assignment Rat}
    (hsame : ∀ k, t.isBasic k = false → v k = w k) : v = t.complete w := by
  funext k
  cases hrow : t.rows.get? k with
  | some row =>
    rw [complete_of_get? hrow, ← h.evaluate_row hrow hv]
    refine Row.evaluate_congr fun k' hk' => hsame k' (Bool.eq_false_iff.mpr fun hb => hk' ?_)
    exact (h.over_row hrow).coefficientFor_basic (h.proper_row hrow) hb
  | none =>
    have hbasic := isBasic_eq_false_iff.mpr hrow
    rw [complete_of_isBasic_eq_false hbasic, hsame k hbasic]

/-- The values after a pivot are those where the entering variable has grown. -/
theorem Represents.basicSolution_pivot (h : t.Represents S cost)
    (hrow : t.rows.get? leaving = some row) (hentering : row.coefficientFor entering ≠ 0) :
    (t.pivot entering leaving).basicSolution = t.complete (Function.update (fun _ => 0) entering
      (-row.constant / row.coefficientFor entering)) := by
  have h' := h.pivot hrow hentering
  refine h.eq_complete (h'.solves_complete _) fun k hk => ?_
  by_cases hk' : k = entering
  · subst hk'
    have hsolved : (t.pivot k leaving).rows.get? k = some (row.solveForPair leaving k) := by
      rw [get?_pivot hrow, if_pos rfl]
    show (t.pivot k leaving).basicSolution k = _
    rw [basicSolution_of_get? hsolved, Function.update_self, Row.constant_solveForPair
      hentering (h.coefficientFor_self hrow)]
  · rw [Function.update_of_ne hk']
    refine basicSolution_of_get?_eq_none (isBasic_eq_false_iff.mp ?_)
    rw [isBasic_pivot hrow, hk, decide_eq_false hk', Bool.and_false, Bool.or_false]

/-- Where no attained solution costs less than the values of a tableau, a pivot of the primal method
does not move them. -/
theorem Prepared.basicSolution_pivot (h : t.Prepared exact quiet S cost) (hexact : exact)
    (hfeasible : t.Feasible) (hleast : ∀ v, S v → t.Attains v → cost t.basicSolution ≤ cost v)
    (hentering : t.entering? t.objective = some entering)
    (hleaving : t.leaving? entering = some leaving) :
    (t.pivot entering leaving).basicSolution = t.basicSolution := by
  have hr := h.represents
  obtain ⟨row, hrow, hrestricted, hneg⟩ := leaving?_eq_some hleaving
  obtain ⟨hpivotable, himproves⟩ := entering?_eq_some_rat hentering
  rw [h.epsilon hexact, neg_zero, not_le] at himproves
  have hsolution := hr.basicSolution_pivot hrow hneg.ne
  set x := -row.constant / row.coefficientFor entering with hx
  have hnonneg : 0 ≤ x := div_nonneg_of_nonpos (neg_nonpos.mpr (hfeasible _ _ hrow hrestricted)) hneg.le
  have hattains : t.Attains (t.pivot entering leaving).basicSolution :=
    (hfeasible.pivot hr.separated.eliminated hleaving).attains.of_pivot hrow hpivotable
  have hle := hleast _ ((hr.pivot hrow hneg.ne).solves_complete _) hattains
  obtain ⟨offset, hoffset⟩ := hr.exists_offset
  have hover := hr.separated.objective
  have hbefore := hoffset _ (hr.solves_complete fun _ => 0)
  have hafter := hoffset _ (hr.solves_complete (Function.update (fun _ => 0) entering x))
  rw [evaluate_complete hover hr.proper_objective] at hbefore hafter
  rw [Row.evaluate_update, sub_zero, add_right_comm, hbefore, ← hsolution] at hafter
  change cost t.basicSolution + _ = _ at hafter
  have hzero : x = 0 := by
    by_contra hne
    have hstep := mul_neg_of_neg_of_pos himproves (lt_of_le_of_ne hnonneg (Ne.symm hne))
    change cost t.basicSolution ≤ cost (t.pivot entering leaving).basicSolution at hle
    linarith
  rw [hsolution, hzero, Function.update_eq_self_iff.mpr rfl, basicSolution]

/-- If no attained solution costs less than the basic one, the primal method moves nothing, whatever
pivots it makes. -/
theorem ensures_optimize_unmoved (h : t.Prepared exact quiet S cost) (hexact : exact)
    (hfeasible : t.Feasible) (hleast : ∀ v, S v → t.Attains v → cost t.basicSolution ≤ cost v) :
    Ensures (optimize .objective) t
      (fun _ t' => t'.Prepared exact quiet S cost ∧ t'.Feasible ∧ t'.basicSolution = t.basicSolution)
      fun _ _ => True := by
  refine ensures_iterate (P := fun t' => (t'.Prepared exact quiet S cost ∧ t'.Feasible) ∧
      t'.basicSolution = t.basicSolution ∧
      ∀ v, S v → t'.Attains v → cost t'.basicSolution ≤ cost v)
    ?finished (fun _ _ => trivial) ?pivot (fun _ _ => trivial) _ ⟨⟨h, hfeasible⟩, rfl, hleast⟩
  case finished =>
    rintro t₁ t₂ ⟨⟨h', hfeasible'⟩, hsame, -⟩ hrule
    rw [(primalRule_finished hrule).1]
    exact ⟨h', hfeasible', hsame⟩
  case pivot =>
    rintro t₁ t₂ entering leaving ⟨⟨h', hfeasible'⟩, hsame, hleast'⟩ hrule
    obtain ⟨rfl, objective, htarget, hentering, hleaving⟩ := primalRule_pivot hrule
    cases htarget
    obtain ⟨row, hrow, hrestricted, hneg⟩ := leaving?_eq_some hleaving
    obtain ⟨hpivotable, -⟩ := entering?_eq_some_rat hentering
    -- A pivot that moved something would make the cost smaller
    have hunmoved := h'.basicSolution_pivot hexact hfeasible' hleast' hentering hleaving
    refine ⟨⟨h'.pivot hrow hneg.ne hpivotable hrestricted,
      hfeasible'.pivot h'.represents.separated.eliminated hleaving⟩, hunmoved.trans hsame,
      fun v hv hattains => ?_⟩
    rw [hunmoved]
    exact hleast' v hv (hattains.of_pivot hrow hpivotable)

/-- If no attained solution costs less than the basic one, solving moves nothing. -/
theorem ensures_solve_unmoved (h : t.Prepared exact quiet S cost) (hexact : exact)
    (hfeasible : t.Feasible) (hleast : ∀ v, S v → t.Attains v → cost t.basicSolution ≤ cost v) :
    Ensures solve t (fun _ t' => t'.basicSolution = t.basicSolution) fun _ _ => True := by
  unfold solve
  rw [ensures_bind]
  refine (ensures_optimize_unmoved h hexact hfeasible hleast).imp ?_ fun _ _ _ => trivial
  rintro _ t' ⟨h', hfeasible', hsame⟩
  rw [ensures_bind, Ensures, h'.dualOptimize_eq hexact hfeasible']
  exact hsame

end Tableau

/-- Outside a batch, nothing is left to optimise when an operation starts. -/
theorem Solver.Sound.noted {s : Solver Rat} {t : Tableau Rat} {exact quiet : Prop}
    (hs : s.Sound exact quiet) (hbatch : s.batch = none)
    (ht : t = s.state.tableau ∨ t = s.state.tableau.begin) :
    t.Sound exact quiet s.state.Equations s.state.charge ∧ t.deferred = false ∧
      ∀ k, ¬ t.Known k → CostIgnores s.state.charge k := by
  refine ⟨hs.state.tableau.of_noted ht, ?_, fun k hk => hs.state.costIgnores_of_not_known ?_⟩
  · rcases ht with rfl | rfl <;> exact hs.settled hbatch
  · rcases ht with rfl | rfl <;> exact hk

end Cassowary
