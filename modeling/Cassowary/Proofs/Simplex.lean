import Mathlib.Algebra.Order.Ring.Rat
import Cassowary.Proofs.Attempt
import Cassowary.Proofs.Table
import Cassowary.Tableau.Insertion

/-!
# Rules and runs of the simplex methods

A method repeats what its rule says. What a method ensures follows by induction on its budget from
what a single application of the rule does. What the rules say is unfolded here once: each lemma
states everything that a choice tells about the tableau.

The rules pick the best of a list in one pass from the left. That pass finds something wherever
there is something, and over the rationals it finds a smallest one.

## Main results

* `Tableau.ensures_iterate` — what a rule keeps, its method keeps
* `Tableau.ensures_iterate_of_countdown` — a method whose pivots count down stays within its limit
* `Tableau.ensures_minimizeArtificial_iff` — what becomes of an artificial objective
* `Tableau.primalRule_finished`, `Tableau.primalRule_impossible`, `Tableau.primalRule_pivot`
* `Tableau.dualRule_finished`, `Tableau.dualRule_impossible`, `Tableau.dualRule_pivot`
* `Tableau.mem_dualCandidates` — what may enter in place of a row
* `Tableau.leaving?_le`, `Tableau.dualEntering?_le` — the ratio tests take a smallest ratio
-/

namespace Cassowary

/-! ## The best of a list -/

section Best

variable {β : Type} {better : Option β → β → Bool} {l : List β} {best : Option β} {b : β}

theorem mem_of_foldl_best
    (h : l.foldl (fun best c => if better best c then some c else best) best = some b) :
    b ∈ l ∨ best = some b := by
  induction l generalizing best with
  | nil => exact .inr h
  | cons c rest ih =>
    rcases ih h with hmem | hbest
    · exact .inl (List.mem_cons_of_mem _ hmem)
    · dsimp only at hbest
      split at hbest
      · cases hbest
        exact .inl List.mem_cons_self
      · exact .inr hbest

theorem foldl_best_ne_none (h : best ≠ none) :
    l.foldl (fun best c => if better best c then some c else best) best ≠ none := by
  induction l generalizing best with
  | nil => exact h
  | cons c rest ih =>
    apply ih
    dsimp only
    split
    · exact Option.some_ne_none c
    · exact h

/-- Where the first of a list is better than nothing, nothing is found only in the empty list. -/
theorem foldl_best_eq_none (hbetter : ∀ c ∈ l, better none c = true)
    (h : l.foldl (fun best c => if better best c then some c else best) none = none) : l = [] := by
  cases l with
  | nil => rfl
  | cons c rest =>
    rw [List.foldl_cons, if_pos (hbetter c List.mem_cons_self)] at h
    exact absurd h (foldl_best_ne_none (Option.some_ne_none c))

/-- A pass that changes its mind only for a smaller one, and whenever there is one, ends with a
smallest one. -/
theorem foldl_best_le {f : β → Rat} (hnone : ∀ c ∈ l, better none c = true)
    (hless : ∀ b c, better (some b) c = true → f c ≤ f b)
    (hnot : ∀ b c, better (some b) c = false → f b ≤ f c)
    (h : l.foldl (fun best c => if better best c then some c else best) best = some b) :
    (∀ c ∈ l, f b ≤ f c) ∧ ∀ c, best = some c → f b ≤ f c := by
  induction l generalizing best with
  | nil => exact ⟨by simp, fun c hc => by rw [hc] at h; cases h; exact le_refl _⟩
  | cons c rest ih =>
    rw [List.foldl_cons] at h
    have hrest := ih (fun c hc => hnone c (List.mem_cons_of_mem _ hc)) h
    -- Either way the pass goes on with something that is at most the first one and the best so far
    by_cases hbetter : better best c = true
    · rw [if_pos hbetter] at hrest
      have hc := hrest.2 c rfl
      refine ⟨List.forall_mem_cons.mpr ⟨hc, hrest.1⟩, fun c' hbest => ?_⟩
      rw [hbest] at hbetter
      exact hc.trans (hless _ _ hbetter)
    · rw [if_neg hbetter] at hrest
      refine ⟨List.forall_mem_cons.mpr ⟨?_, hrest.1⟩, hrest.2⟩
      cases hbest : best with
      | none => exact absurd (hbest ▸ hnone c List.mem_cons_self) hbetter
      | some b' =>
        rw [hbest, Bool.not_eq_true] at hbetter
        exact (hrest.2 b' hbest).trans (hnot _ _ hbetter)

end Best

namespace Tableau

open Attempt

variable {α : Type} [Scalar α] {t t' : Tableau α} {row : Row α} {entering leaving k : Key}
  {cause : SolverError} {target : Target}

/-! ## Methods -/

/-- One application of a rule, and what is left of the budget after it. The rule is asked even where
nothing is left, and only a pivot is refused then. -/
theorem ensures_iterate_of {rule : Tableau α → Choice × Tableau α} {limit budget : Nat}
    {done : Tableau α → Prop} {failed : SolverError → Tableau α → Prop}
    (hfinished : ∀ t', rule t = (.finished, t') → done t')
    (himpossible : ∀ cause t', rule t = (.impossible cause, t') → failed cause t')
    (hpivot : ∀ entering leaving t', rule t = (.pivot entering leaving, t') →
      match budget with
      | 0 => failed (.iterationLimit limit) t'
      | budget + 1 =>
        Ensures (iterate rule limit budget) (t'.pivot entering leaving) (fun _ => done) failed) :
    Ensures (iterate rule limit budget) t (fun _ => done) failed := by
  unfold Ensures iterate
  cases hchoice : rule t with
  | mk choice t' =>
    cases choice with
    | finished => exact hfinished t' hchoice
    | impossible cause => exact himpossible cause t' hchoice
    | pivot entering leaving =>
      have hrest := hpivot entering leaving t' hchoice
      cases budget with
      | zero => exact hrest
      | succ budget => exact hrest

/-- What every application of a rule keeps holds as long as its method runs. -/
theorem ensures_iterate {rule : Tableau α → Choice × Tableau α} {limit : Nat}
    {P done : Tableau α → Prop} {failed : SolverError → Tableau α → Prop}
    (hfinished : ∀ {t t'}, P t → rule t = (.finished, t') → done t')
    (himpossible : ∀ {t t' cause}, P t → rule t = (.impossible cause, t') → failed cause t')
    (hpivot : ∀ {t t' entering leaving}, P t → rule t = (.pivot entering leaving, t') →
      P (t'.pivot entering leaving))
    (hlimit : ∀ {t t' entering leaving}, P t → rule t = (.pivot entering leaving, t') →
      failed (.iterationLimit limit) t')
    (budget : Nat) (ht : P t) : Ensures (iterate rule limit budget) t (fun _ => done) failed := by
  induction budget generalizing t with
  | zero =>
    exact ensures_iterate_of (fun _ => hfinished ht) (fun _ _ => himpossible ht)
      fun _ _ _ => hlimit ht
  | succ budget ih =>
    exact ensures_iterate_of (fun _ => hfinished ht) (fun _ _ => himpossible ht)
      fun _ _ _ hchoice => ih (hpivot ht hchoice)

/-- If every pivot counts down, a budget as large as the count is never exceeded. -/
theorem ensures_iterate_of_countdown {rule : Tableau α → Choice × Tableau α} {limit : Nat}
    {P : Nat → Tableau α → Prop} {done : Tableau α → Prop} {failed : SolverError → Tableau α → Prop}
    (hfinished : ∀ {n t t'}, P n t → rule t = (.finished, t') → done t')
    (himpossible : ∀ {n t t' cause}, P n t → rule t = (.impossible cause, t') → failed cause t')
    (hpivot : ∀ {n t t' entering leaving}, P n t → rule t = (.pivot entering leaving, t') →
      ∃ n', n = n' + 1 ∧ P n' (t'.pivot entering leaving)) {n budget : Nat} (ht : P n t)
    (hbudget : n ≤ budget) : Ensures (iterate rule limit budget) t (fun _ => done) failed := by
  induction budget generalizing n t with
  | zero =>
    refine ensures_iterate_of (fun _ => hfinished ht) (fun _ _ => himpossible ht)
      fun entering leaving t' hchoice => ?_
    obtain ⟨n', rfl, -⟩ := hpivot ht hchoice
    exact absurd hbudget (Nat.not_succ_le_zero n')
  | succ budget ih =>
    refine ensures_iterate_of (fun _ => hfinished ht) (fun _ _ => himpossible ht)
      fun entering leaving t' hchoice => ?_
    obtain ⟨n', rfl, ht'⟩ := hpivot ht hchoice
    exact ih ht' (Nat.le_of_succ_le_succ hbudget)

theorem iterate_of_finished {rule : Tableau α → Choice × Tableau α} {t' : Tableau α}
    (h : rule t = (.finished, t')) (limit budget : Nat) : iterate rule limit budget t = .ok () t' := by
  cases budget <;> (unfold iterate; rw [h])

/-- The artificial objective is made as small as possible and then dropped. -/
theorem ensures_minimizeArtificial_iff {done : α → Tableau α → Prop}
    {failed : SolverError → Tableau α → Prop} :
    Ensures minimizeArtificial t done failed ↔ Ensures (optimize .artificial) t
      (fun _ t' => done ((t'.artificial.map (·.constant)).getD 0) { t' with artificial := none })
      fun cause t' => failed cause { t' with artificial := none } := by
  unfold Ensures minimizeArtificial
  cases optimize .artificial t <;> rfl

/-! ## The primal rule -/

theorem primalRule_finished (h : primalRule target t = (.finished, t')) :
    t' = t ∧ ∀ row, t.targetRow target = some row → t.entering? row = none := by
  unfold primalRule at h
  split at h
  · next hentering =>
    cases h
    exact ⟨rfl, fun row hrow => by rwa [hrow] at hentering⟩
  · split at h <;> cases h

theorem primalRule_impossible (h : primalRule target t = (.impossible cause, t')) :
    t' = t ∧ cause = .unbounded ∧ ∃ row entering, t.targetRow target = some row ∧
      t.entering? row = some entering ∧ t.leaving? entering = none := by
  unfold primalRule at h
  split at h
  · cases h
  · next entering hentering =>
    obtain ⟨row, hrow, hentering⟩ := Option.bind_eq_some_iff.mp hentering
    split at h
    · next hleaving =>
      cases h
      exact ⟨rfl, rfl, row, entering, hrow, hentering, hleaving⟩
    · cases h

theorem primalRule_pivot (h : primalRule target t = (.pivot entering leaving, t')) :
    t' = t ∧ ∃ row, t.targetRow target = some row ∧ t.entering? row = some entering ∧
      t.leaving? entering = some leaving := by
  unfold primalRule at h
  split at h
  · cases h
  · next hentering =>
    obtain ⟨row, hrow, hentering⟩ := Option.bind_eq_some_iff.mp hentering
    split at h
    · cases h
    · next hleaving =>
      cases h
      exact ⟨rfl, row, hrow, hentering, hleaving⟩

theorem entering?_eq_some (h : t.entering? row = some k) :
    ∃ c ∈ row.terms, c.var = k ∧ k.pivotable = true ∧ ¬ -t.epsilon ≤ c.coefficient := by
  obtain ⟨c, hbest, rfl⟩ := Option.map_eq_some_iff.mp h
  rcases mem_of_foldl_best hbest with hmem | hnone
  · obtain ⟨hterm, hkept⟩ := List.mem_filter.mp hmem
    rw [Bool.and_eq_true, Bool.not_eq_true', decide_eq_false_iff_not] at hkept
    exact ⟨c, hterm, rfl, hkept⟩
  · cases hnone

theorem entering?_eq_none (h : t.entering? row = none) {c : Term Key α} (hc : c ∈ row.terms)
    (hpivotable : c.var.pivotable = true) : -t.epsilon ≤ c.coefficient := by
  have hempty := foldl_best_eq_none (fun _ _ => rfl) (Option.map_eq_none_iff.mp h)
  have hkept := List.filter_eq_nil_iff.mp hempty c hc
  rw [hpivotable, Bool.true_and, Bool.not_eq_true', decide_eq_false_iff_not, not_not] at hkept
  exact hkept

theorem mem_bounds {c : Term Key α} : c ∈ t.bounds k ↔
    ∃ row, t.rows.get? c.var = some row ∧ c.var.unrestricted = false ∧
      row.coefficientFor k < 0 ∧ c.coefficient = -row.constant / row.coefficientFor k := by
  rw [bounds, List.mem_filterMap]
  constructor
  · rintro ⟨e, he, hbound⟩
    dsimp only at hbound
    split at hbound
    · next hkept =>
      cases hbound
      rw [Bool.and_eq_true, Bool.not_eq_true', decide_eq_true_eq] at hkept
      exact ⟨e.2, Table.get?_eq_some_iff.mpr he, hkept.1, hkept.2, rfl⟩
    · cases hbound
  · rintro ⟨row, hrow, hrestricted, hneg, hratio⟩
    refine ⟨(c.var, row), Table.get?_eq_some_iff.mp hrow, ?_⟩
    simp only [hrestricted, hneg, Bool.not_false, decide_true, Bool.and_self, if_true, ← hratio]

theorem leaving?_eq_some (h : t.leaving? entering = some leaving) :
    ∃ row, t.rows.get? leaving = some row ∧ leaving.unrestricted = false ∧
      row.coefficientFor entering < 0 := by
  obtain ⟨c, hbest, rfl⟩ := Option.map_eq_some_iff.mp h
  rcases mem_of_foldl_best hbest with hmem | hnone
  · obtain ⟨row, hrow, hrestricted, hneg, -⟩ := mem_bounds.mp hmem
    exact ⟨row, hrow, hrestricted, hneg⟩
  · cases hnone

/-! ## The dual rule -/

/-- The rows of a queue that are not infeasible are passed over. -/
theorem nextViolated_eq_none {queue : List Key} (h : t.nextViolated queue = none) (hk : k ∈ queue)
    (hrow : t.rows.get? k = some row) : ¬ row.constant < -t.epsilon := by
  induction queue with
  | nil => cases hk
  | cons k' rest ih =>
    unfold nextViolated at h
    rcases List.mem_cons.mp hk with rfl | hrest
    · rw [hrow] at h
      dsimp only at h
      split at h
      · cases h
      · assumption
    · split at h
      · split at h
        · cases h
        · exact ih h hrest
      · exact ih h hrest

/-- The first infeasible row of a queue, behind rows that are not infeasible. -/
theorem nextViolated_eq_some {queue rest : List Key}
    (h : t.nextViolated queue = some (leaving, row, rest)) :
    t.rows.get? leaving = some row ∧ row.constant < -t.epsilon ∧
      ∃ skipped, queue = skipped ++ leaving :: rest ∧
        ∀ k ∈ skipped, ∀ row, t.rows.get? k = some row → ¬ row.constant < -t.epsilon := by
  induction queue with
  | nil => cases h
  | cons k' rest' ih =>
    unfold nextViolated at h
    split at h
    · next row' hrow' =>
      split at h
      · next hneg =>
        cases h
        exact ⟨hrow', hneg, [], rfl, by simp⟩
      · next hfeasible =>
        obtain ⟨hrow, hneg, skipped, rfl, hskipped⟩ := ih h
        refine ⟨hrow, hneg, k' :: skipped, rfl,
          List.forall_mem_cons.mpr ⟨fun row'' h'' => ?_, hskipped⟩⟩
        rw [hrow'] at h''
        cases h''
        exact hfeasible
    · next hnone =>
      obtain ⟨hrow, hneg, skipped, rfl, hskipped⟩ := ih h
      refine ⟨hrow, hneg, k' :: skipped, rfl,
        List.forall_mem_cons.mpr ⟨fun row'' h'' => ?_, hskipped⟩⟩
      rw [hnone] at h''
      cases h''

theorem mem_of_nextViolated {queue rest : List Key}
    (h : t.nextViolated queue = some (leaving, row, rest)) : leaving ∈ queue := by
  obtain ⟨-, -, skipped, rfl, -⟩ := nextViolated_eq_some h
  exact List.mem_append_right _ List.mem_cons_self

/-- The search works the queue off from the front. -/
theorem subset_of_nextViolated {queue rest : List Key}
    (h : t.nextViolated queue = some (leaving, row, rest)) : rest ⊆ queue := by
  obtain ⟨-, -, skipped, rfl, -⟩ := nextViolated_eq_some h
  exact fun _ hk => List.mem_append_right _ (List.mem_cons_of_mem _ hk)

theorem dualRule_finished (h : dualRule t = (.finished, t')) :
    t' = { t with infeasible := [] } ∧ t.nextViolated t.infeasible = none := by
  unfold dualRule at h
  split at h
  · next hnone => cases h; exact ⟨rfl, hnone⟩
  · dsimp only at h
    split at h <;> cases h

theorem dualRule_impossible (h : dualRule t = (.impossible cause, t')) :
    cause = .unsatisfiable ∧ ∃ leaving row rest, t' = { t with infeasible := rest } ∧
      t.nextViolated t.infeasible = some (leaving, row, rest) ∧ t.dualEntering? row = none := by
  unfold dualRule at h
  split at h
  · cases h
  · next leaving row rest hnext =>
    dsimp only at h
    split at h
    · next hentering => cases h; exact ⟨rfl, leaving, row, rest, rfl, hnext, hentering⟩
    · cases h

theorem dualRule_pivot (h : dualRule t = (.pivot entering leaving, t')) :
    ∃ row rest, t' = { t with infeasible := rest } ∧
      t.nextViolated t.infeasible = some (leaving, row, rest) ∧
      t.dualEntering? row = some entering := by
  unfold dualRule at h
  split at h
  · cases h
  · next leaving' row rest hnext =>
    dsimp only at h
    split at h
    · cases h
    · next hentering => cases h; exact ⟨row, rest, rfl, hnext, hentering⟩

/-- The key of a term with the ratio that is compared, if it may enter in place of a row. -/
def dualCandidate? (t : Tableau α) (c : Term Key α) : Option (Term Key α) :=
  if c.var.pivotable && !decide (c.coefficient ≤ 0) then
    some ⟨c.var, t.objective.coefficientFor c.var / c.coefficient⟩
  else none

/-- The keys that may enter in place of a row, with the ratios that are compared. -/
def dualCandidates (t : Tableau α) (row : Row α) : List (Term Key α) :=
  row.terms.filterMap t.dualCandidate?

theorem dualCandidate?_eq_some {c d : Term Key α} : t.dualCandidate? d = some c ↔
    d.var = c.var ∧ d.var.pivotable = true ∧ ¬ d.coefficient ≤ 0 ∧
      c.coefficient = t.objective.coefficientFor d.var / d.coefficient := by
  unfold dualCandidate?
  constructor
  · intro h
    split at h
    · next hkept =>
      cases h
      rw [Bool.and_eq_true, Bool.not_eq_true', decide_eq_false_iff_not] at hkept
      exact ⟨rfl, hkept.1, hkept.2, rfl⟩
    · cases h
  · rintro ⟨hvar, hpivotable, hpos, hratio⟩
    rw [hpivotable, decide_eq_false hpos, ← hratio, hvar]
    rfl

theorem mem_dualCandidates {c : Term Key α} : c ∈ t.dualCandidates row ↔
    ∃ x, ⟨c.var, x⟩ ∈ row.terms ∧ c.var.pivotable = true ∧ ¬ x ≤ 0 ∧
      c.coefficient = t.objective.coefficientFor c.var / x := by
  simp only [dualCandidates, List.mem_filterMap, dualCandidate?_eq_some]
  constructor
  · rintro ⟨⟨k, x⟩, hd, rfl, hkept⟩
    exact ⟨x, hd, hkept⟩
  · rintro ⟨x, hmem, hkept⟩
    exact ⟨⟨c.var, x⟩, hmem, rfl, hkept⟩

theorem dualEntering?_eq_some (h : t.dualEntering? row = some entering) :
    ∃ x, ⟨entering, x⟩ ∈ row.terms ∧ entering.pivotable = true ∧ ¬ x ≤ 0 := by
  obtain ⟨c, hbest, rfl⟩ := Option.map_eq_some_iff.mp h
  rcases mem_of_foldl_best hbest with hmem | hnone
  · obtain ⟨x, hx, hpivotable, hpos, -⟩ := mem_dualCandidates.mp hmem
    exact ⟨x, hx, hpivotable, hpos⟩
  · cases hnone

theorem dualEntering?_eq_none (h : t.dualEntering? row = none) {x : α} (hx : ⟨k, x⟩ ∈ row.terms)
    (hpivotable : k.pivotable = true) : x ≤ 0 := by
  have hempty : t.dualCandidates row = [] :=
    foldl_best_eq_none (fun _ _ => rfl) (Option.map_eq_none_iff.mp h)
  by_contra hpos
  have hmem : ⟨k, t.objective.coefficientFor k / x⟩ ∈ t.dualCandidates row :=
    mem_dualCandidates.mpr ⟨x, hx, hpivotable, hpos, rfl⟩
  rw [hempty] at hmem
  cases hmem

/-! ## Ratio tests over the rationals -/

section Exact

variable {t : Tableau Rat} {row row' : Row Rat}

theorem leastRatio_eq_none {candidates : List (Term Key Rat)} (h : leastRatio candidates = none) :
    candidates = [] :=
  foldl_best_eq_none (fun _ _ => rfl) (Option.map_eq_none_iff.mp h)

/-- The ratio that is found is a smallest one. -/
theorem leastRatio_eq_some {candidates : List (Term Key Rat)} (h : leastRatio candidates = some k) :
    ∃ c ∈ candidates, c.var = k ∧ ∀ c' ∈ candidates, c.coefficient ≤ c'.coefficient := by
  obtain ⟨c, hbest, rfl⟩ := Option.map_eq_some_iff.mp h
  have hle := foldl_best_le (f := Term.coefficient) (fun _ _ => rfl)
    (fun _ _ h => (of_decide_eq_true h).le) (fun _ _ h => not_lt.mp (of_decide_eq_false h)) hbest
  rcases mem_of_foldl_best hbest with hmem | hnone
  · exact ⟨c, hmem, rfl, hle.1⟩
  · cases hnone

/-- Without a row that bounds it, a key may grow as one likes. -/
theorem leaving?_eq_none (h : t.leaving? entering = none) (hrow : t.rows.get? k = some row)
    (hk : k.unrestricted = false) : 0 ≤ row.coefficientFor entering := by
  have hempty := leastRatio_eq_none h
  by_contra hneg
  have hmem : (⟨k, -row.constant / row.coefficientFor entering⟩ : Term Key Rat) ∈
      t.bounds entering := mem_bounds.mpr ⟨row, hrow, hk, not_le.mp hneg, rfl⟩
  rw [hempty] at hmem
  cases hmem

/-- The row that leaves bounds the entering key the most. -/
theorem leaving?_le (h : t.leaving? entering = some leaving)
    (hleaving : t.rows.get? leaving = some row) (hrow : t.rows.get? k = some row')
    (hk : k.unrestricted = false) (hneg : row'.coefficientFor entering < 0) :
    -row.constant / row.coefficientFor entering ≤
      -row'.constant / row'.coefficientFor entering := by
  obtain ⟨c, hmem, rfl, hle⟩ := leastRatio_eq_some h
  obtain ⟨row'', hrow'', -, -, hratio⟩ := mem_bounds.mp hmem
  rw [hleaving] at hrow''
  cases hrow''
  have hmem' : (⟨k, -row'.constant / row'.coefficientFor entering⟩ : Term Key Rat) ∈
      t.bounds entering := mem_bounds.mpr ⟨row', hrow, hk, hneg, rfl⟩
  rw [← hratio]
  exact hle _ hmem'

/-- Without a tolerance, the key that enters in place of a row has a smallest ratio. -/
theorem dualEntering?_le (hepsilon : t.epsilon = 0) (h : t.dualEntering? row = some entering)
    {x y : Rat} (hx : ⟨entering, x⟩ ∈ row.terms) (hy : ⟨k, y⟩ ∈ row.terms)
    (hdistinct : (row.terms.map (·.var)).Nodup) (hpivotable : k.pivotable = true) (hpos : 0 < y) :
    t.objective.coefficientFor entering / x ≤ t.objective.coefficientFor k / y := by
  obtain ⟨c, hbest, rfl⟩ := Option.map_eq_some_iff.mp h
  have hle := foldl_best_le (f := Term.coefficient) (fun _ _ => rfl)
    (fun b c h => by
      dsimp only at h
      rw [hepsilon, sub_zero, add_zero, Bool.or_eq_true, Bool.and_eq_true, decide_eq_true_eq,
        decide_eq_true_eq] at h
      rcases h with hlt | ⟨hle, -⟩
      · exact hlt.le
      · exact hle)
    (fun b c h => by
      dsimp only at h
      rw [hepsilon, sub_zero, Bool.or_eq_false_iff, decide_eq_false_iff_not, not_lt] at h
      exact h.1) hbest
  rcases mem_of_foldl_best hbest with hmem | hnone
  · obtain ⟨x', hx', -, -, hratio⟩ := mem_dualCandidates.mp hmem
    have hsame : x' = x := congrArg Term.coefficient
      (List.inj_on_of_nodup_map hdistinct hx' hx rfl)
    rw [hsame] at hratio
    have hmem' : ⟨k, t.objective.coefficientFor k / y⟩ ∈ t.dualCandidates row :=
      mem_dualCandidates.mpr ⟨y, hy, hpivotable, not_le.mpr hpos, rfl⟩
    rw [← hratio]
    exact hle.1 _ hmem'
  · cases hnone

end Exact

end Tableau

end Cassowary
