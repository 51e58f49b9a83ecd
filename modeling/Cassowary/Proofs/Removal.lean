import Cassowary.Proofs.Insertion

/-!
# What a removal comes to

A constraint goes in two steps. Its prices are taken out of the objective; then its marker is made
basic, and the row of the marker is dropped, which forgets the marker and the equation with it. What
remains are the solutions of the other equations.

The row in whose place the marker becomes basic is chosen so that the rows stay feasible: either the
marker grows, until the first row that falls is at its bound, or it falls, until the first row that
rises is, or no row of a symbol moves with it.

## Main definitions

* `Handle.Splits` — a constraint that stands beside the others

## Main results

* `Tableau.Represents.eraseRow_of_split` — dropping the row of a marker forgets its equation
* `Tableau.markerLeaving?_eq_some` — what the choice of a row tells
* `Tableau.Prepared.dropMarker` — the second step
* `Tableau.ensures_removeConstraint` — the whole removal
-/

namespace Cassowary

/-- The solutions are those of the other equations that meet the equation `f` as well, and the
marker has a part in that one only. The cost of the rest does not depend on layout variables. -/
structure Handle.Splits (h : Handle) (S S' : Assignment Rat → Prop)
    (cost' f : Assignment Rat → Rat) : Prop where
  split : ∀ v, S v ↔ S' v ∧ f v = 0
  ignores : Ignores S' h.marker
  marker : Slope f h.marker 1
  other : ∀ k, h.other = some k → Slope f k (-1)
  cost : ∀ v w, (∀ k, k.unrestricted = false → k ≠ h.marker → v k = w k) → cost' v = cost' w
  fits : ∃ relation required, h.Fits relation required

theorem Handle.Splits.costIgnores {h : Handle} {S S' : Assignment Rat → Prop}
    {cost' f : Assignment Rat → Rat} (hsplits : h.Splits S S' cost' f) :
    CostIgnores cost' h.marker :=
  fun _ _ => hsplits.cost _ _ fun _ _ hne => Function.update_of_ne hne _ _

namespace Tableau

open Attempt

variable {t t' : Tableau Rat} {S S' : Assignment Rat → Prop} {cost cost' f : Assignment Rat → Rat}
  {row row' : Row Rat} {k leaving marker : Key} {handle : Handle} {exact quiet : Prop}

/-! ## Prices -/

/-- A variable that an equation depends on has been given out. -/
theorem Represents.known_of_slope (h : t.Represents S cost) (hsplit : ∀ v, S v ↔ S' v ∧ f v = 0)
    {a : Rat} (hslope : Slope f k a) (ha : a ≠ 0) : t.Known k := by
  by_contra hknown
  have hv := h.solves_complete fun _ => 0
  have hmoved := h.ignores_of_not_known hknown _ (t.complete (fun _ => 0) k + 1) hv
  have hzero := ((hsplit _).mp hmoved).2
  rw [hslope, ((hsplit _).mp hv).2] at hzero
  apply ha
  linarith

/-- When the price of an error variable is dropped, the objective is less by what the variable
costs. -/
theorem Represents.evaluate_dropPrice (h : t.Represents S cost) (k : Key) (s : Strength Rat)
    {v : Assignment Rat} (hv : S v) :
    (t.dropPrice k s).objective.evaluate v = t.objective.evaluate v - s.value * v k := by
  unfold Tableau.dropPrice
  dsimp only
  split
  · next row hrow =>
    have hvalue := Row.evaluate_insertRow h.proper_objective row (-s.value) v
    rw [h.evaluate_row hrow hv] at hvalue
    exact hvalue.trans (by ring)
  · have hvalue := Row.evaluate_insert h.proper_objective ⟨k, -s.value⟩ v
    exact hvalue.trans (by ring)

/-- Without its price, an error variable costs nothing. -/
theorem Prepared.dropPrice (h : t.Prepared exact quiet S cost) (hk : k.unrestricted = false)
    (hknown : t.Known k) (s : Strength Rat) :
    (t.dropPrice k s).Prepared exact quiet S (fun v => cost v - s.value * v k) ∧
      (t.dropPrice k s).rows = t.rows ∧ (t.dropPrice k s).artificial = t.artificial ∧
      (t.dropPrice k s).nextId = t.nextId := by
  have hr := h.represents
  have hlayered := h.canonical.layered
  have hover := (hr.separated.dropPrice hknown s).objective
  have hvalue : ∃ offset, ∀ v, S v →
      (t.dropPrice k s).objective.evaluate v + offset = cost v - s.value * v k := by
    obtain ⟨offset, hoffset⟩ := hr.exists_offset
    refine ⟨offset, fun v hv => ?_⟩
    rw [hr.evaluate_dropPrice k s hv, ← hoffset v hv]
    ring
  unfold Tableau.dropPrice at hover hvalue ⊢
  dsimp only at hover hvalue ⊢
  cases hrow : t.rows.get? k with
  | some row =>
    rw [hrow] at hover hvalue
    refine ⟨h.of_objective rfl rfl le_rfl rfl rfl hover ?_ (fun k' hk' => ?_) hvalue, rfl, rfl, rfl⟩
    · exact hr.proper_objective.insertRow _ _
    · apply (Row.coefficientFor_insertRow hr.proper_objective row _ k').trans
      rw [hlayered.objective hk', hlayered.row hrow hk hk', mul_zero, add_zero]
  | none =>
    rw [hrow] at hover hvalue
    refine ⟨h.of_objective rfl rfl le_rfl rfl rfl hover ?_ (fun k' hk' => ?_) hvalue, rfl, rfl, rfl⟩
    · exact hr.proper_objective.insert _
    · refine (Row.coefficientFor_insert hr.proper_objective ⟨k, -s.value⟩ k').trans ?_
      rw [hlayered.objective hk', if_neg, add_zero]
      rintro rfl
      rw [hk] at hk'
      cases hk'

theorem Prepared.dropPrices (h : t.Prepared exact quiet S cost) (s : Strength Rat)
    (errors : List Key) (herrors : ∀ k ∈ errors, k.unrestricted = false ∧ t.Known k) :
    (errors.foldl (·.dropPrice · s) t).Prepared exact quiet S
        (fun v => cost v - (errors.map fun k => s.value * v k).sum) ∧
      (errors.foldl (·.dropPrice · s) t).rows = t.rows ∧
      (errors.foldl (·.dropPrice · s) t).artificial = t.artificial := by
  induction errors generalizing t cost with
  | nil => exact ⟨h.congr (fun _ => Iff.rfl) ⟨0, fun v _ => by simp⟩, rfl, rfl⟩
  | cons k rest ih =>
    obtain ⟨hk, hknown⟩ := herrors k List.mem_cons_self
    obtain ⟨h', hrows, hartificial, hid⟩ := h.dropPrice hk hknown s
    obtain ⟨h'', hrows', hartificial'⟩ := ih h' fun k hk =>
      ⟨(herrors k (List.mem_cons_of_mem _ hk)).1, fun hinternal =>
        hid ▸ (herrors k (List.mem_cons_of_mem _ hk)).2 hinternal⟩
    refine ⟨h''.congr (fun _ => Iff.rfl) ⟨0, fun v _ => ?_⟩, hrows'.trans hrows,
      hartificial'.trans hartificial⟩
    rw [List.map_cons, List.sum_cons]
    ring

/-! ## The row of the marker -/

/-- A basic marker takes up whatever its equation misses, so without its row the other equations
remain. -/
theorem Represents.eraseRow_of_split (h : t.Represents S cost) (hk : t.isBasic marker = true)
    (hsplit : ∀ v, S v ↔ S' v ∧ f v = 0) (hignores : Ignores S' marker) (hmarker : Slope f marker 1)
    (hcost : CostIgnores cost marker) : (t.eraseRow marker).Represents S' cost := by
  obtain ⟨row, hrow⟩ := isBasic_iff.mp hk
  have hself := h.coefficientFor_self hrow
  have hrest : ∀ v x, (t.eraseRow marker).Solves (Function.update v marker x) ↔
      (t.eraseRow marker).Solves v := fun v x => by
    rw [Tableau.solves_iff, Tableau.solves_iff]
    refine forall_congr' fun k => forall_congr' fun r => ?_
    rw [get?_eraseRow]
    split
    · simp
    · next hne =>
      apply imp_congr_right
      intro hr
      have hzero : r.coefficientFor marker = 0 :=
        (h.over_row hr).coefficientFor_basic (h.proper_row hr) hk
      rw [Function.update_of_ne hne, Row.evaluate_update, hzero, zero_mul, add_zero]
  have hsolves : ∀ v, (t.eraseRow marker).Solves v ↔
      S (Function.update v marker (row.evaluate v)) := fun v => by
    rw [← h.solves_iff, solves_eraseRow hrow, hrest, Function.update_self, Row.evaluate_update,
      hself, zero_mul, add_zero, and_iff_left rfl]
  refine (h.eraseRow marker).congr (fun v => ?_) ?_
  · rw [hsolves, hsplit, hignores.iff]
    apply and_iff_left_of_imp
    intro hv
    -- The value of the marker that meets the equation is the one that its row gives
    have hmet : S (Function.update v marker (v marker - f v)) :=
      (hsplit _).mpr ⟨hignores _ _ hv, by rw [hmarker]; ring⟩
    have hvalue := h.evaluate_row hrow hmet
    rw [Row.evaluate_update, hself, zero_mul, add_zero, Function.update_self] at hvalue
    rw [hvalue]
    exact ((hsplit _).mp hmet).2
  · obtain ⟨offset, hoffset⟩ := h.exists_offset
    refine ⟨offset, fun v hv => ?_⟩
    have hmet : S (Function.update v marker (v marker - f v)) :=
      (hsplit _).mpr ⟨hignores _ _ hv, by rw [hmarker]; ring⟩
    have hunused : t.objective.coefficientFor marker = 0 :=
      h.separated.objective.coefficientFor_basic h.proper_objective hk
    have hvalue := hoffset _ hmet
    rwa [Row.evaluate_update, hunused, zero_mul, add_zero, hcost] at hvalue

theorem mem_column {c : Rat} : (k, row, c) ∈ t.column marker ↔
    t.rows.get? k = some row ∧ c = row.coefficientFor marker ∧ c ≠ 0 := by
  rw [column, List.mem_filter, List.mem_map, Table.get?_eq_some_iff]
  constructor
  · rintro ⟨⟨e, he, heq⟩, hne⟩
    cases heq
    exact ⟨he, rfl, by simpa using hne⟩
  · rintro ⟨hmem, rfl, hne⟩
    exact ⟨⟨(k, row), hmem, rfl⟩, by simpa using hne⟩

/-- The least ratio among some rows is that of a row, and no greater than that of another. -/
theorem leastRatio_map_eq_some {l : List (Key × Row Rat × Rat)} {ratio : Key × Row Rat × Rat → Rat}
    (h : leastRatio (l.map fun e => (⟨e.1, ratio e⟩ : Term Key Rat)) = some leaving) :
    ∃ e ∈ l, e.1 = leaving ∧ ∀ e' ∈ l, ratio e ≤ ratio e' := by
  obtain ⟨c, hc, rfl, hle⟩ := leastRatio_eq_some h
  obtain ⟨e, he, rfl⟩ := List.mem_map.mp hc
  exact ⟨e, he, rfl, fun e' he' => hle _ (List.mem_map.mpr ⟨e', he', rfl⟩)⟩

theorem leastRatio_map_eq_none {l : List (Key × Row Rat × Rat)} {ratio : Key × Row Rat × Rat → Rat}
    (h : leastRatio (l.map fun e => (⟨e.1, ratio e⟩ : Term Key Rat)) = none)
    (e : Key × Row Rat × Rat) : e ∉ l := by
  rw [List.map_eq_nil_iff.mp (leastRatio_eq_none h)]
  exact List.not_mem_nil

/-- The rows of symbols that fall while a marker grows, and those that rise. -/
theorem mem_falling {c : Rat} :
    (k, row, c) ∈ ((t.column marker).filter fun e => !e.1.unrestricted).filter
        (fun e => decide (e.2.2 < 0)) ↔
      t.rows.get? k = some row ∧ c = row.coefficientFor marker ∧
        k.unrestricted = false ∧ c < 0 := by
  rw [List.mem_filter, List.mem_filter, mem_column, Bool.not_eq_true', decide_eq_true_eq]
  constructor
  · rintro ⟨⟨⟨hrow, hc, -⟩, hk⟩, hneg⟩
    exact ⟨hrow, hc, hk, hneg⟩
  · rintro ⟨hrow, hc, hk, hneg⟩
    exact ⟨⟨⟨hrow, hc, hneg.ne⟩, hk⟩, hneg⟩

theorem mem_rising {c : Rat} :
    (k, row, c) ∈ ((t.column marker).filter fun e => !e.1.unrestricted).filter
        (fun e => !decide (e.2.2 < 0)) ↔
      t.rows.get? k = some row ∧ c = row.coefficientFor marker ∧
        k.unrestricted = false ∧ 0 < c := by
  rw [List.mem_filter, List.mem_filter, mem_column, Bool.not_eq_true', Bool.not_eq_true',
    decide_eq_false_iff_not, not_lt]
  constructor
  · rintro ⟨⟨⟨hrow, hc, hne⟩, hk⟩, hpos⟩
    exact ⟨hrow, hc, hk, lt_of_le_of_ne hpos hne.symm⟩
  · rintro ⟨hrow, hc, hk, hpos⟩
    exact ⟨⟨⟨hrow, hc, hpos.ne'⟩, hk⟩, hpos.le⟩

/-- How a row stands to the others when its key makes way for a marker: no row of a symbol falls
below zero before it while the marker grows; or none falls and none that rises with the marker gets
to zero before it while the marker falls; or no row of a symbol moves at all. -/
inductive Yields (t : Tableau Rat) (marker leaving : Key) (row : Row Rat) : Prop where
  | falling (restricted : leaving.unrestricted = false) (neg : row.coefficientFor marker < 0)
      (le : ∀ k row', t.rows.get? k = some row' → k.unrestricted = false →
        row'.coefficientFor marker < 0 →
        -row.constant / row.coefficientFor marker ≤ -row'.constant / row'.coefficientFor marker)
  | rising (restricted : leaving.unrestricted = false) (pos : 0 < row.coefficientFor marker)
      (nonneg : ∀ k row', t.rows.get? k = some row' → k.unrestricted = false →
        0 ≤ row'.coefficientFor marker)
      (le : ∀ k row', t.rows.get? k = some row' → k.unrestricted = false →
        0 < row'.coefficientFor marker →
        row.constant / row.coefficientFor marker ≤ row'.constant / row'.coefficientFor marker)
  | free (unrestricted : leaving.unrestricted = true)
      (eq_zero : ∀ k row', t.rows.get? k = some row' → k.unrestricted = false →
        row'.coefficientFor marker = 0)

/-- The row of a layout variable yields only where no row of a symbol moves. -/
theorem Yields.eq_zero (h : t.Yields marker leaving row) (hleaving : leaving.unrestricted = true) :
    ∀ k row', t.rows.get? k = some row' → k.unrestricted = false →
      row'.coefficientFor marker = 0 := by
  cases h with
  | falling hrestricted => exact absurd (hrestricted.symm.trans hleaving) Bool.false_ne_true
  | rising hrestricted => exact absurd (hrestricted.symm.trans hleaving) Bool.false_ne_true
  | free _ hzero => exact hzero

/-- The row that a marker takes the place of. -/
theorem markerLeaving?_eq_some (h : t.markerLeaving? marker = some leaving) :
    ∃ row, t.rows.get? leaving = some row ∧ row.coefficientFor marker ≠ 0 ∧
      t.Yields marker leaving row := by
  unfold markerLeaving? at h
  dsimp only at h
  rcases Option.or_eq_some_iff.mp h with hfalling | ⟨hnofall, hrest⟩
  · obtain ⟨⟨leaving, row, c⟩, he, rfl, hle⟩ := leastRatio_map_eq_some hfalling
    obtain ⟨hrow, rfl, hk, hneg⟩ := mem_falling.mp he
    exact ⟨row, hrow, hneg.ne, .falling hk hneg fun k row' hrow' hk' hneg' =>
      hle (k, row', _) (mem_falling.mpr ⟨hrow', rfl, hk', hneg'⟩)⟩
  have hnonneg : ∀ k row', t.rows.get? k = some row' → k.unrestricted = false →
      0 ≤ row'.coefficientFor marker := fun k row' hrow' hk => not_lt.mp fun hneg =>
    leastRatio_map_eq_none hnofall (k, row', _) (mem_falling.mpr ⟨hrow', rfl, hk, hneg⟩)
  rcases Option.or_eq_some_iff.mp hrest with hrising | ⟨hnorise, hfree⟩
  · obtain ⟨⟨leaving, row, c⟩, he, rfl, hle⟩ := leastRatio_map_eq_some hrising
    obtain ⟨hrow, rfl, hk, hpos⟩ := mem_rising.mp he
    exact ⟨row, hrow, hpos.ne', .rising hk hpos hnonneg fun k row' hrow' hk' hpos' =>
      hle (k, row', _) (mem_rising.mpr ⟨hrow', rfl, hk', hpos'⟩)⟩
  · obtain ⟨⟨leaving, row, c⟩, he, rfl⟩ := Option.map_eq_some_iff.mp hfree
    obtain ⟨hcolumn, hunrestricted⟩ := List.mem_filter.mp (List.mem_of_getLast? he)
    obtain ⟨hrow, rfl, hne⟩ := mem_column.mp hcolumn
    refine ⟨row, hrow, hne, .free hunrestricted fun k row' hrow' hk => ?_⟩
    refine le_antisymm (not_lt.mp fun hpos => ?_) (hnonneg k row' hrow' hk)
    exact leastRatio_map_eq_none hnorise (k, row', _) (mem_rising.mpr ⟨hrow', rfl, hk, hpos⟩)

/-- A row is found unless no row mentions the marker. -/
theorem markerLeaving?_eq_none (h : t.markerLeaving? marker = none)
    (hrow : t.rows.get? k = some row) : row.coefficientFor marker = 0 := by
  unfold markerLeaving? at h
  dsimp only at h
  obtain ⟨hfalling, hrest⟩ := Option.or_eq_none_iff.mp h
  obtain ⟨hrising, hfree⟩ := Option.or_eq_none_iff.mp hrest
  have hfree := List.getLast?_eq_none_iff.mp (Option.map_eq_none_iff.mp hfree)
  by_contra hne
  cases hk : k.unrestricted with
  | true =>
    have hmem : (k, row, row.coefficientFor marker) ∈
        (t.column marker).filter (·.1.unrestricted) :=
      List.mem_filter.mpr ⟨mem_column.mpr ⟨hrow, rfl, hne⟩, hk⟩
    rw [hfree] at hmem
    exact List.not_mem_nil hmem
  | false =>
    rcases lt_or_gt_of_ne hne with hneg | hpos
    · exact leastRatio_map_eq_none hfalling (k, row, _) (mem_falling.mpr ⟨hrow, rfl, hk, hneg⟩)
    · exact leastRatio_map_eq_none hrising (k, row, _) (mem_rising.mpr ⟨hrow, rfl, hk, hpos⟩)

/-! ## The equation of the marker -/

/-- When a marker takes the place of a row that yields to it, no row becomes infeasible but that of
the marker. -/
theorem Yields.nonneg (h : t.Yields marker leaving row) (hfeasible : t.Feasible)
    (hrow : t.rows.get? leaving = some row) (hold : t.rows.get? k = some row')
    (hk : k.unrestricted = false) :
    0 ≤ row'.constant + row'.coefficientFor marker *
      (-row.constant / row.coefficientFor marker) := by
  have hconstant := hfeasible k row' hold hk
  cases h with
  | falling hrestricted hneg hle =>
    -- The marker grows, until the first row gets to zero
    by_cases hsign : 0 ≤ row'.coefficientFor marker
    · refine add_nonneg hconstant (mul_nonneg hsign (div_nonneg_of_nonpos ?_ hneg.le))
      exact neg_nonpos.mpr (hfeasible _ _ hrow hrestricted)
    · have hmul := mul_le_mul_of_nonpos_left (hle k row' hold hk (not_le.mp hsign))
        (not_le.mp hsign).le
      rw [mul_div_cancel₀ _ (not_le.mp hsign).ne] at hmul
      linarith
  | rising hrestricted hpos hnonneg hle =>
    rw [neg_div, mul_neg]
    rcases (hnonneg k row' hold hk).eq_or_lt with hzero | hpos'
    · rwa [← hzero, zero_mul, neg_zero, add_zero]
    · have hmul := mul_le_mul_of_nonneg_left (hle k row' hold hk hpos') hpos'.le
      rw [mul_div_cancel₀ _ hpos'.ne'] at hmul
      linarith
  | free _ hzero => rwa [hzero k row' hold hk, zero_mul, add_zero]

/-- The cost does not move with a marker that no row of a symbol moves with. -/
theorem Represents.objective_coefficientFor_of_free (h : t.Represents S cost)
    (hzero : ∀ k row', t.rows.get? k = some row' → k.unrestricted = false →
      row'.coefficientFor marker = 0)
    (hcost : ∀ v w, (∀ k, k.unrestricted = false → k ≠ marker → v k = w k) → cost v = cost w) :
    t.objective.coefficientFor marker = 0 := by
  obtain ⟨offset, hoffset⟩ := h.exists_offset
  -- Two solutions that differ in the marker, and otherwise in layout variables only
  have hsame : cost (t.complete (Function.update (fun _ => 0) marker 1)) =
      cost (t.complete fun _ => 0) := hcost _ _ fun k hk hne => by
    cases hrow : t.rows.get? k with
    | some row =>
      rw [complete_of_get? hrow, complete_of_get? hrow, Row.evaluate_update, hzero k row hrow hk,
        zero_mul, add_zero]
    | none =>
      have hk := isBasic_eq_false_iff.mpr hrow
      rw [complete_of_isBasic_eq_false hk, complete_of_isBasic_eq_false hk,
        Function.update_of_ne hne]
  rw [← hoffset _ (h.solves_complete _), ← hoffset _ (h.solves_complete _),
    evaluate_complete h.separated.objective h.proper_objective,
    evaluate_complete h.separated.objective h.proper_objective, Row.evaluate_update] at hsame
  linarith

/-- A marker that stands in an equation stands in a row. -/
theorem Represents.exists_coefficientFor_ne_zero (h : t.Represents S cost)
    (hbasic : t.isBasic marker = false) (hsplit : ∀ v, S v ↔ S' v ∧ f v = 0)
    (hmarker : Slope f marker 1) :
    ∃ k row, t.rows.get? k = some row ∧ row.coefficientFor marker ≠ 0 := by
  by_contra hnone
  have hzero : ∀ k row, t.rows.get? k = some row → row.coefficientFor marker = 0 :=
    fun k row hrow => by_contra fun hne => hnone ⟨k, row, hrow, hne⟩
  have hv := h.solves_complete fun _ => 0
  have hmoved : S (Function.update (t.complete fun _ => 0) marker 1) := by
    rw [← h.solves_iff, Tableau.solves_iff] at hv ⊢
    intro k row hrow
    rw [Function.update_of_ne (ne_of_get? hrow hbasic), Row.evaluate_update, hzero k row hrow,
      zero_mul, add_zero, hv k row hrow]
  have hmet := ((hsplit _).mp hmoved).2
  rw [hmarker, ((hsplit _).mp hv).2, complete_of_isBasic_eq_false hbasic] at hmet
  linarith

/-- A row that is there after a marker has taken the place of one, and been dropped with it, is an
old row with the marker replaced. -/
theorem get?_exchange {new : Row Rat} (hrow : t.rows.get? leaving = some row)
    (hnew : ((t.pivot marker leaving).eraseRow marker).rows.get? k = some new) :
    ∃ old, t.rows.get? k = some old ∧
      new = old.substitute (.unit marker) (row.solveForPair leaving marker) := by
  obtain ⟨hne, hnew⟩ := get?_of_eraseRow hnew
  rcases get?_pivot_cases hrow hnew with ⟨heq, -⟩ | ⟨-, hold⟩
  · exact absurd heq hne
  · exact hold

/-- A marker that takes the place of a row and then goes leaves layout variables where they were. -/
theorem Layered.exchange (h : t.Layered) (hr : t.Represents S cost)
    (hrow : t.rows.get? leaving = some row) (hcoefficient : row.coefficientFor marker ≠ 0)
    (hyields : t.Yields marker leaving row)
    (hfree : leaving.unrestricted = true → ∀ target row', t.targetRow target = some row' →
      row'.coefficientFor marker = 0) : ((t.pivot marker leaving).eraseRow marker).Layered := by
  cases hleaving : leaving.unrestricted with
  | false => exact (h.pivot hr hrow hcoefficient hleaving).eraseRow marker
  | true =>
    have hzero := hyields.eq_zero hleaving
    have hsame : ∀ {old : Row Rat} {k' : Key}, old.Proper → old.coefficientFor marker = 0 →
        old.coefficientFor k' = 0 →
        (old.substitute (.unit marker) (row.solveForPair leaving marker)).coefficientFor k' =
          0 := by
      intro old k' hproper hold hk'
      rw [Row.coefficientFor_substitute hproper, hold, hk', zero_mul, ite_self, add_zero]
    refine ⟨fun {k k' new} hnew hk hk' => ?_, fun {target new k'} hnew hk' => ?_⟩
    · obtain ⟨old, hold, rfl⟩ := get?_exchange hrow hnew
      exact hsame (hr.proper_row hold) (hzero k old hold hk) (h.row hold hk hk')
    · rw [targetRow_eraseRow, targetRow_pivot hrow] at hnew
      obtain ⟨old, hold, rfl⟩ := Option.map_eq_some_iff.mp hnew
      exact hsame (hr.proper_target hold) (hfree hleaving target old hold) (h.target hold hk')

/-- Rows of dummies that do not have the marker stay as they are when it goes. -/
theorem DummiesIdle.exchange (h : t.DummiesIdle) (hr : t.Represents S cost)
    (hrow : t.rows.get? leaving = some row)
    (hmarker : ∀ k row', t.rows.get? k = some row' → k.dummy = true →
      row'.coefficientFor marker = 0) :
    ((t.pivot marker leaving).eraseRow marker).DummiesIdle := by
  intro k new hnew hk
  obtain ⟨old, hold, rfl⟩ := get?_exchange hrow hnew
  obtain ⟨hconstant, hdummies⟩ := h k old hold hk
  have hzero := hmarker k old hold hk
  refine ⟨by
    rw [Row.constant_substitute, hconstant, hzero, zero_mul, add_zero],
    fun k' hk' => hdummies k' fun hold' => hk' ?_⟩
  rw [Row.coefficientFor_substitute (hr.proper_row hold), hold', hzero, zero_mul, ite_self,
    add_zero]

/-- When a marker takes the place of the row that yields, and is dropped with it, the other rows
stay feasible. -/
theorem Feasible.exchange (h : t.Feasible) (hr : t.Represents S cost)
    (hrow : t.rows.get? leaving = some row) (hcoefficient : row.coefficientFor marker ≠ 0)
    (hyields : t.Yields marker leaving row) :
    ((t.pivot marker leaving).eraseRow marker).Feasible := by
  intro k new hnew hk
  obtain ⟨old, hold, rfl⟩ := get?_exchange hrow hnew
  rw [Row.constant_substitute, Row.constant_solveForPair hcoefficient (hr.coefficientFor_self hrow)]
  exact hyields.nonneg h hrow hold hk

/-- A marker that is basic goes with its row. -/
theorem Prepared.eraseMarker (h : t.Prepared exact quiet S cost')
    (hsplits : handle.Splits S S' cost' f) (hbasic : t.isBasic handle.marker = true) :
    (t.eraseRow handle.marker).Prepared exact quiet S' cost' where
  canonical :=
    { represents := h.represents.eraseRow_of_split hbasic hsplits.split hsplits.ignores
        hsplits.marker hsplits.costIgnores
      layered := h.canonical.layered.eraseRow _
      queue := h.canonical.queue.of_eq (infeasible_eraseRow t _) }
  epsilon hexact := (epsilon_eraseRow t _).trans (h.epsilon hexact)
  queued hexact := (h.queued hexact).eraseRow _
  idle hexact hquiet := (h.idle hexact hquiet).eraseRow _

/-- A marker that is not basic takes the place of the row that yields, and goes with it. -/
theorem Prepared.exchangeMarker (h : t.Prepared exact quiet S cost')
    (hartificial : t.artificial = none) (hsplits : handle.Splits S S' cost' f)
    (hrow : t.rows.get? leaving = some row)
    (hcoefficient : row.coefficientFor handle.marker ≠ 0)
    (hyields : t.Yields handle.marker leaving row)
    (hquiet : exact → quiet → ∀ k row, t.rows.get? k = some row → k.dummy = true →
      row.coefficientFor handle.marker = 0) :
    ((t.pivot handle.marker leaving).eraseRow handle.marker).Prepared exact quiet S' cost' := by
  have hr := h.represents
  have hbasic : (t.pivot handle.marker leaving).isBasic handle.marker = true :=
    isBasic_of_get? (by rw [get?_pivot hrow, if_pos rfl])
  have hfree : leaving.unrestricted = true → ∀ target row', t.targetRow target = some row' →
      row'.coefficientFor handle.marker = 0 := by
    intro hleaving target row' hrow'
    cases target with
    | objective =>
      cases hrow'
      exact hr.objective_coefficientFor_of_free (hyields.eq_zero hleaving) hsplits.cost
    | artificial =>
      rw [targetRow, hartificial] at hrow'
      cases hrow'
  exact
    { canonical :=
        { represents := (hr.pivot hrow hcoefficient).eraseRow_of_split hbasic hsplits.split
            hsplits.ignores hsplits.marker hsplits.costIgnores
          layered := h.canonical.layered.exchange hr hrow hcoefficient hyields hfree
          queue := (h.canonical.queue.pivot _ _).of_eq (infeasible_eraseRow _ _) }
      epsilon := fun hexact =>
        (epsilon_eraseRow _ _).trans ((epsilon_pivot t _ _).trans (h.epsilon hexact))
      queued := fun hexact => ((h.queued hexact).pivot _ _).eraseRow _
      idle := fun hexact hq => (h.idle hexact hq).exchange hr hrow (hquiet hexact hq) }

/-- The second step of a removal leaves the other equations, and rows that are feasible. -/
theorem Prepared.dropMarker (h : t.Prepared exact quiet S cost') (hfeasible : exact → t.Feasible)
    (hartificial : t.artificial = none) (hsplits : handle.Splits S S' cost' f)
    (hquiet : exact → quiet → ∀ k row, t.rows.get? k = some row → k.dummy = true →
      row.coefficientFor handle.marker = 0) :
    (t.dropMarker handle.marker).Prepared exact quiet S' cost' ∧
      (exact → (t.dropMarker handle.marker).Feasible) := by
  unfold Tableau.dropMarker
  split
  · next hbasic =>
    exact ⟨h.eraseMarker hsplits hbasic, fun hexact k row hrow =>
      hfeasible hexact k row (get?_of_eraseRow hrow).2⟩
  · next hbasic =>
    rw [Bool.not_eq_true] at hbasic
    split
    · next leaving hleaving =>
      obtain ⟨row, hrow, hcoefficient, hyields⟩ := markerLeaving?_eq_some hleaving
      exact ⟨h.exchangeMarker hartificial hsplits hrow hcoefficient hyields hquiet,
        fun hexact => (hfeasible hexact).exchange h.represents hrow hcoefficient hyields⟩
    · next hnone =>
      -- Without a row the equation of the marker would hold whatever the marker is
      obtain ⟨k, row, hrow, hne⟩ :=
        h.represents.exists_coefficientFor_ne_zero hbasic hsplits.split hsplits.marker
      exact absurd (markerLeaving?_eq_none hnone hrow) hne

/-! ## The whole -/

/-- The symbols of a constraint that stands beside the others have been given out. -/
theorem Represents.known_of_splits (h : t.Represents S cost)
    (hsplits : handle.Splits S S' cost' f) :
    ∀ k ∈ handle.markers, k.unrestricted = false ∧ t.Known k := by
  intro k hk
  obtain ⟨relation, required, hfits⟩ := hsplits.fits
  refine ⟨hfits.unrestricted hk, ?_⟩
  rcases Handle.mem_markers.mp hk with rfl | hother
  · exact h.known_of_slope hsplits.split hsplits.marker one_ne_zero
  · exact h.known_of_slope hsplits.split (hsplits.other k hother) (by norm_num)

/-- Without its prices, a constraint costs nothing. -/
theorem Prepared.dropHandlePrices (h : t.Prepared exact quiet S cost) {s : Strength Rat}
    (hsplits : handle.Splits S S' cost' f) (hcost : ∀ v, cost v = cost' v + handle.price s v) :
    Prepared exact quiet ((handle.markers.filter (·.kind = .error)).foldl (·.dropPrice · s) t)
        S cost' ∧
      ((handle.markers.filter (·.kind = .error)).foldl (·.dropPrice · s) t).rows = t.rows ∧
      ((handle.markers.filter (·.kind = .error)).foldl (·.dropPrice · s) t).artificial =
        t.artificial := by
  obtain ⟨hprices, hrows, hnone⟩ := h.dropPrices s (handle.markers.filter (·.kind = .error))
    fun k hk => h.represents.known_of_splits hsplits k (List.mem_filter.mp hk).1
  refine ⟨hprices.congr (fun _ => Iff.rfl) ⟨0, fun v _ => ?_⟩, hrows, hnone⟩
  rw [hcost, Handle.price, Handle.prices, List.map_map]
  simp only [Function.comp_def]
  ring

/-- A removal leaves the other equations without the price of the constraint. In exact arithmetic it
never finds a contradiction. -/
theorem ensures_removeConstraint (h : t.Sound exact quiet S cost)
    (hartificial : t.artificial = none)
    {s : Strength Rat} (hsplits : handle.Splits S S' cost' f)
    (hcost : ∀ v, cost v = cost' v + handle.price s v)
    (hquiet : exact → quiet → ∀ k row, t.rows.get? k = some row → k.dummy = true →
      row.coefficientFor handle.marker = 0) (defer : Bool) :
    Ensures (removeConstraint handle s defer) t
      (fun _ t' => t'.Sound exact quiet S' cost' ∧ (defer = false → t'.deferred = false))
      fun cause _ => Certified exact quiet S' cost' cause ∧ (cause = .unsatisfiable → ¬ exact) := by
  obtain ⟨hdropped, hrows, hnone⟩ := h.prepared.dropHandlePrices hsplits hcost
  have hstart : exact → Tableau.Feasible
      ((handle.markers.filter (·.kind = .error)).foldl (·.dropPrice · s) t) :=
    fun hexact k row hrow => h.feasible hexact k row (hrows ▸ hrow)
  obtain ⟨hprepared, hfeasible⟩ := hdropped.dropMarker hstart (hnone.trans hartificial) hsplits
    fun hexact hq k row hrow => hquiet hexact hq k row (hrows ▸ hrow)
  refine ensures_removeConstraint_of ((ensures_finish defer hprepared fun hexact =>
    .inl (hfeasible hexact)).imp (fun _ _ => id) ?_)
  rintro cause _ ⟨hcertified, hinfeasible⟩
  exact ⟨hcertified, fun hcause hexact => hinfeasible hcause hexact (hfeasible hexact)⟩

end Tableau

end Cassowary
