import Cassowary.Proofs.Artificial

/-!
# What an insertion comes to

A tableau that is sound before an insertion is sound after it, and then it represents the solutions
of the new equation among the old ones. In exact arithmetic a constraint is refused only if no
admissible solution meets its equation. A constraint that may be violated is never refused for a
contradiction: its equation can always be solved for a variable whose row is feasible.

## Main definitions

* `Handle.Marks` — how an equation and a cost depend on the symbols of a new constraint
* `Subject.Suits` — what the choice of a variable tells about a row

## Main results

* `Row.subject?_suits`, `Row.subject?_eq_none` — the choice of a variable
* `Tableau.ensures_prepareFor` — an optimisation that was put off is caught up on where it matters
* `Tableau.ensures_insertRow`, `Tableau.ensures_addConstraint` — the whole insertion
-/

namespace Cassowary

/-! ## The choice of a variable -/

/-- What the choice of a variable tells about a row. -/
def Subject.Suits (row : Row Rat) (h : Handle) : Subject → Prop
  | .free k => k.unrestricted = true ∧ row.coefficientFor k ≠ 0
  | .feasible k => (k ∈ h.markers ∧ k.pivotable = true ∧ row.coefficientFor k < 0) ∧
      ∀ k, k.unrestricted = true → row.coefficientFor k = 0
  | .infeasible k => (k ∈ h.markers ∧ k.pivotable = true ∧ 0 < row.coefficientFor k) ∧
      (∀ k ∈ h.markers, k.pivotable = true → 0 ≤ row.coefficientFor k) ∧
      ∀ k, k.unrestricted = true → row.coefficientFor k = 0

namespace Row

variable {row : Row Rat} {handle : Handle} {subject : Subject} {t : Tableau Rat}
  {S : Assignment Rat → Prop} {cost f : Assignment Rat → Rat} {k : Key}

/-- Without a layout variable among its keys, a row has none. -/
theorem Proper.coefficientFor_of_find?_eq_none (h : row.Proper)
    (hfind : row.keys.find? (·.unrestricted) = none) (hk : k.unrestricted = true) :
    row.coefficientFor k = 0 := by
  by_contra hne
  have hmem := contains_iff_mem_keys.mp (h.contains_iff.mpr hne)
  exact absurd hk (List.find?_eq_none.mp hfind k hmem)

theorem subject?_suits (h : row.Proper) (hsubject : row.subject? handle = some subject) :
    subject.Suits row handle := by
  unfold subject? at hsubject
  dsimp only at hsubject
  split at hsubject
  · next k hfind =>
    cases hsubject
    exact ⟨List.find?_some hfind,
      h.contains_iff.mp (contains_iff_mem_keys.mpr (List.mem_of_find?_eq_some hfind))⟩
  · next hnone =>
    -- Without a layout variable, a marker with a negative coefficient comes before one with a
    -- positive one
    have hfree := fun k hk => h.coefficientFor_of_find?_eq_none (k := k) hnone hk
    split at hsubject
    · next k hfind =>
      cases hsubject
      obtain ⟨hmem, hpivotable⟩ := List.mem_filter.mp (List.mem_of_find?_eq_some hfind)
      have hneg := List.find?_some hfind
      exact ⟨⟨hmem, hpivotable, of_decide_eq_true hneg⟩, hfree⟩
    · next hnegative =>
      obtain ⟨k, hfind, rfl⟩ := Option.map_eq_some_iff.mp hsubject
      obtain ⟨hmem, hpivotable⟩ := List.mem_filter.mp (List.mem_of_find?_eq_some hfind)
      have hpos := List.find?_some hfind
      refine ⟨⟨hmem, hpivotable, of_decide_eq_true hpos⟩, fun k' hk' hp' => ?_, hfree⟩
      have hnot := List.find?_eq_none.mp hnegative k' (List.mem_filter.mpr ⟨hk', hp'⟩)
      exact not_lt.mp fun hneg => hnot (decide_eq_true hneg)

/-- Where there is no variable to solve for, neither layout variables nor symbols that may enter the
basis occur. -/
theorem subject?_eq_none (h : row.Proper) (hsubject : row.subject? handle = none) :
    (∀ k ∈ handle.markers, k.pivotable = true → row.coefficientFor k = 0) ∧
      ∀ k, k.unrestricted = true → row.coefficientFor k = 0 := by
  unfold subject? at hsubject
  dsimp only at hsubject
  split at hsubject
  · cases hsubject
  · next hnone =>
    split at hsubject
    · cases hsubject
    · next hnegative =>
      have hpositive := Option.map_eq_none_iff.mp hsubject
      refine ⟨fun k hk hpivotable => ?_, fun k hk => h.coefficientFor_of_find?_eq_none hnone hk⟩
      have hmem := List.mem_filter.mpr ⟨hk, hpivotable⟩
      have hnotneg := List.find?_eq_none.mp hnegative k hmem
      have hnotpos := List.find?_eq_none.mp hpositive k hmem
      exact le_antisymm (not_lt.mp fun hpos => hnotpos (decide_eq_true hpos))
        (not_lt.mp fun hneg => hnotneg (decide_eq_true hneg))

theorem allDummies_iff (h : row.Proper) :
    row.allDummies = true ↔ ∀ k, row.coefficientFor k ≠ 0 → k.dummy = true := by
  rw [allDummies, List.all_eq_true]
  apply forall_congr'
  intro k
  rw [← contains_iff_mem_keys, h.contains_iff]

/-- Where a row has the value of a function, the coefficient of a new symbol is its slope. -/
theorem coefficientFor_of_evaluate_eq (hr : t.Represents S cost)
    (hvalue : ∀ v, S v → row.evaluate v = f v) {a : Rat} (hignores : Ignores S k)
    (hslope : Slope f k a) : row.coefficientFor k = a := by
  have hv := hr.solves_complete fun _ => 0
  have hmoved := hvalue _ (hignores _ (t.complete (fun _ => 0) k + 1) hv)
  rw [evaluate_update, hslope, hvalue _ hv] at hmoved
  linarith

namespace Encodes

theorem evaluate_eq_zero_iff (h : row.Encodes t S f) {v : Assignment Rat} (hv : S v) :
    row.evaluate v = 0 ↔ f v = 0 := by
  obtain ⟨sign, hsign, hvalue⟩ := h.value
  rw [hvalue v hv, mul_eq_zero, or_iff_right]
  rcases hsign with rfl | rfl <;> norm_num

/-- The coefficients of new symbols are those of the equation, up to a common sign. -/
theorem exists_sign (h : row.Encodes t S f) (hr : t.Represents S cost) :
    ∃ sign : Rat, (sign = 1 ∨ sign = -1) ∧
      ∀ k a, Ignores S k → Slope f k a → row.coefficientFor k = sign * a := by
  obtain ⟨sign, hsign, hvalue⟩ := h.value
  refine ⟨sign, hsign, fun k a hignores hslope => ?_⟩
  refine coefficientFor_of_evaluate_eq hr hvalue hignores fun v x => ?_
  dsimp only
  rw [hslope, mul_add, mul_assoc]

theorem solutions_iff (h : row.Encodes t S f) (v : Assignment Rat) :
    S v ∧ row.evaluate v = 0 ↔ S v ∧ f v = 0 :=
  and_congr_right fun hv => h.evaluate_eq_zero_iff hv

/-- Dummies are zero, so of a row with nothing else the constant is left. -/
theorem constant_eq_zero (h : row.Encodes t S f)
    (hall : ∀ k, row.coefficientFor k ≠ 0 → k.dummy = true)
    (hsolution : ∃ v, (S v ∧ f v = 0) ∧ v.Admissible) : row.constant = 0 := by
  obtain ⟨v, hv, hadmissible⟩ := hsolution
  have hvalue : row.evaluate v = row.constant := by
    rw [← row.evaluate_zero]
    apply evaluate_congr
    intro k hk
    have hdummy := hall k hk
    refine hadmissible.eq_zero k (Key.unrestricted_of_dummy hdummy)
      (Bool.eq_false_iff.mpr fun hp => ?_)
    rw [Key.dummy_of_pivotable hp] at hdummy
    cases hdummy
  exact hvalue.symm.trans ((h.solutions_iff v).mpr hv).2

/-- What is not a layout variable and not a dummy may enter the basis. -/
theorem exists_pivotable (h : row.Encodes t S f) (hr : t.Represents S cost)
    (hplain : ∀ k : Key, k.Rowless → Ignores S k ∧ Slope f k 0)
    (hfree : ∀ k, k.unrestricted = true → row.coefficientFor k = 0)
    (hnot : ¬ ∀ k, row.coefficientFor k ≠ 0 → k.dummy = true) :
    ∃ p, p.pivotable = true ∧ row.coefficientFor p ≠ 0 := by
  obtain ⟨sign, -, hcoefficient⟩ := h.exists_sign hr
  by_contra hnone
  apply hnot
  intro k hk
  by_contra hdummy
  have hrowless : k.Rowless :=
    ⟨Bool.eq_false_iff.mpr fun hu => hk (hfree k hu),
      Bool.eq_false_iff.mpr fun hp => hnone ⟨k, hp, hk⟩, Bool.not_eq_true _ ▸ hdummy⟩
  obtain ⟨hignores, hslope⟩ := hplain k hrowless
  exact hk (by rw [hcoefficient k 0 hignores hslope, mul_zero])

end Encodes

end Row

/-- How an equation and a cost depend on the symbols of a new constraint: the marker makes up what
is missing, less the other symbol, and nothing else depends on them but that the other symbol, or
the marker with it, has a price. -/
structure Handle.Marks (h : Handle) (S : Assignment Rat → Prop) (cost f : Assignment Rat → Rat) :
    Prop where
  ignores : ∀ k ∈ h.markers, Ignores S k
  marker : Slope f h.marker 1
  other : ∀ k, h.other = some k → Slope f k (-1)
  fits : ∃ relation required, h.Fits relation required
  cost : h.other = none → CostIgnores cost h.marker

theorem CostIgnores.add {f g : Assignment Rat → Rat} {k : Key} (hf : CostIgnores f k)
    (hg : CostIgnores g k) : CostIgnores (fun v => f v + g v) k :=
  fun v x => congrArg₂ (· + ·) (hf v x) (hg v x)

/-- The value of a constraint depends on the variables that it mentions only. -/
theorem Constraint.value_of_notMem {c : Constraint Rat} {k : Key} (hk : k ∉ c.keys) :
    CostIgnores c.value k := by
  intro v x
  unfold Constraint.value
  refine congrArg (· + c.constant) (congrArg List.sum (List.map_congr_left fun t ht => ?_))
  rw [Function.update_of_ne]
  rintro rfl
  exact hk (List.mem_map_of_mem ht)

theorem Constraint.value_update {c : Constraint Rat} (hc : c.OverLayout) {k : Key}
    (hk : k.unrestricted = false) : CostIgnores c.value k := by
  apply Constraint.value_of_notMem
  intro hmem
  obtain ⟨t, ht, rfl⟩ := List.mem_map.mp hmem
  rw [hc t ht] at hk
  cases hk

namespace Handle

variable {h : Handle} {c : Constraint Rat} {s : Strength Rat} {relation : Relation}
  {required : Bool} {k : Key}

theorem Fits.required_of_other (hfits : h.Fits relation required) (hother : h.other = none) :
    required = true := by
  cases relation <;> cases required <;> simp [Fits, hother] at hfits ⊢

theorem Fits.other_eq_none (hfits : h.Fits relation true) : h.other = none := by
  cases relation <;> exact hfits.2

theorem Fits.not_mem_of_rowless (hfits : h.Fits relation required) (hk : k.Rowless) :
    k ∉ h.markers := fun hmem => by
  rcases hfits.kind hmem with hkind | hkind
  · rw [hk.pivotable] at hkind
    cases hkind
  · rw [hk.dummy] at hkind
    cases hkind

theorem price_congr {v w : Assignment Rat} (hsame : ∀ k ∈ h.markers, v k = w k) :
    h.price s v = h.price s w := by
  refine congrArg List.sum (List.map_congr_left fun p hp => ?_)
  exact congrArg (p.coefficient * ·) (hsame p.var (mem_prices hp).1)

/-- The price of the symbols does not depend on other variables. -/
theorem price_ignores (hk : k ∉ h.markers) : CostIgnores (h.price s) k := by
  refine fun v x => price_congr fun e he => Function.update_of_ne ?_ x v
  rintro rfl
  exact hk he

theorem price_nonneg (hrestricted : ∀ k ∈ h.markers, k.unrestricted = false) (hs : 0 ≤ s.value)
    {v : Assignment Rat} (hv : v.Nonnegative) : 0 ≤ h.price s v := by
  apply List.sum_nonneg
  intro x hx
  obtain ⟨p, hp, rfl⟩ := List.mem_map.mp hx
  obtain ⟨hmem, hcoefficient⟩ := mem_prices hp
  rw [hcoefficient]
  exact mul_nonneg hs (hv p.var (hrestricted p.var hmem))

/-- Prices keep a cost that is not negative from becoming so. -/
theorem Fits.bounded_price (hfits : h.Fits relation required) {S : Assignment Rat → Prop}
    {cost : Assignment Rat → Rat} (hcost : ∀ v : Assignment Rat, v.Nonnegative → 0 ≤ cost v)
    (hs : 0 ≤ s.value) : Bounded S fun v => cost v + h.price s v :=
  ⟨0, fun v _ hv => add_nonneg (hcost v hv) (price_nonneg (fun _ => hfits.unrestricted) hs hv)⟩

/-- A slack has no price. -/
theorem Fits.price_marker (hfits : h.Fits relation required) (hother : h.other = none) :
    CostIgnores (h.price s) h.marker := by
  obtain rfl : required = true := by
    by_contra hsoft
    rw [Bool.not_eq_true] at hsoft
    subst hsoft
    cases relation <;> simp [Fits, hother] at hfits
  intro v x
  rw [price, price, hfits.prices_of_required]
  rfl

/-- The equation of a constraint depends on what its value depends on, and on its symbols. -/
theorem equation_of_value (hvalue : CostIgnores c.value k) (hmem : k ∉ h.markers) :
    CostIgnores (c.equation h) k := by
  intro v x
  unfold Constraint.equation
  have hmarker : h.marker ≠ k := by
    rintro rfl
    exact hmem List.mem_cons_self
  rw [hvalue, Function.update_of_ne hmarker]
  cases hother : h.other with
  | none => rfl
  | some e =>
    have hne : e ≠ k := by
      rintro rfl
      exact hmem (mem_markers.mpr (.inr hother))
    rw [Option.elim_some, Option.elim_some, Function.update_of_ne hne]

/-- The equation of a constraint depends on no other symbols. -/
theorem equation_ignores (hc : c.OverLayout) (hk : k.unrestricted = false) (hmem : k ∉ h.markers) :
    Slope (c.equation h) k 0 :=
  (equation_of_value (c.value_update hc hk) hmem).slope

/-- The equation of a constraint grows with its marker. -/
theorem equation_marker (hc : c.OverLayout) (hfits : h.Fits relation required)
    (hnodup : h.markers.Nodup) : Slope (c.equation h) h.marker 1 := by
  intro v x
  unfold Constraint.equation
  rw [c.value_update hc (hfits.unrestricted List.mem_cons_self), Function.update_self]
  cases hother : h.other with
  | none =>
    rw [Option.elim_none, Option.elim_none]
    ring
  | some e =>
    have hne : e ≠ h.marker := by
      rintro rfl
      simp [markers, hother] at hnodup
    rw [Option.elim_some, Option.elim_some, Function.update_of_ne hne]
    ring

/-- The equation of a constraint falls with its other symbol. -/
theorem equation_other (hc : c.OverLayout) (hfits : h.Fits relation required)
    (hnodup : h.markers.Nodup) (hother : h.other = some k) : Slope (c.equation h) k (-1) := by
  intro v x
  have hne : h.marker ≠ k := by
    rintro rfl
    simp [markers, hother] at hnodup
  unfold Constraint.equation
  rw [c.value_update hc (hfits.unrestricted (mem_markers.mpr (.inr hother))), hother,
    Option.elim_some, Option.elim_some, Function.update_self, Function.update_of_ne hne]
  ring

/-- How the equation of a constraint depends on its symbols. -/
theorem marks_equation {S : Assignment Rat → Prop} {cost : Assignment Rat → Rat}
    (hc : c.OverLayout) (hfits : h.Fits relation required) (hnodup : h.markers.Nodup)
    (hignores : ∀ k ∈ h.markers, Ignores S k) (hcost : ∀ k ∈ h.markers, CostIgnores cost k) :
    h.Marks S (fun v => cost v + h.price s v) (c.equation h) where
  ignores := hignores
  marker := equation_marker hc hfits hnodup
  other _ hother := equation_other hc hfits hnodup hother
  fits := ⟨relation, required, hfits⟩
  cost hother := (hcost _ List.mem_cons_self).add (hfits.price_marker hother)

/-- Keys that no constraint has stay without a part in the equations and the cost. -/
theorem Fits.plain {S : Assignment Rat → Prop} {cost : Assignment Rat → Rat}
    (hfits : h.Fits relation required) (hc : c.OverLayout)
    (hplain : ∀ k : Key, k.Rowless → Ignores S k ∧ CostIgnores cost k) :
    ∀ k : Key, k.Rowless → Ignores S k ∧ CostIgnores (fun v => cost v + h.price s v) k ∧
      Slope (c.equation h) k 0 :=
  fun k hk => ⟨(hplain k hk).1, (hplain k hk).2.add (price_ignores (hfits.not_mem_of_rowless hk)),
    equation_ignores hc hk.unrestricted (hfits.not_mem_of_rowless hk)⟩

namespace Marks

variable {S : Assignment Rat → Prop} {cost cost' f : Assignment Rat → Rat} {t : Tableau Rat}
  {row : Row Rat}

/-- In a row that says what the equation says, the symbols have opposite signs. -/
theorem exists_sign (hmarks : h.Marks S cost f) (hrow : row.Encodes t S f)
    (hr : t.Represents S cost') : ∃ sign : Rat, (sign = 1 ∨ sign = -1) ∧
      row.coefficientFor h.marker = sign ∧
        ∀ e, h.other = some e → row.coefficientFor e = -sign := by
  obtain ⟨sign, hsign, hcoefficient⟩ := hrow.exists_sign hr
  refine ⟨sign, hsign, ?_, fun e he => ?_⟩
  · rw [hcoefficient _ 1 (hmarks.ignores _ List.mem_cons_self) hmarks.marker, mul_one]
  · rw [hcoefficient e (-1) (hmarks.ignores e (mem_markers.mpr (.inr he))) (hmarks.other e he),
      mul_neg, mul_one]

theorem coefficientFor_marker_ne_zero (hmarks : h.Marks S cost f) (hrow : row.Encodes t S f)
    (hr : t.Represents S cost') : row.coefficientFor h.marker ≠ 0 := by
  obtain ⟨sign, rfl | rfl, hmarker, -⟩ := hmarks.exists_sign hrow hr
  all_goals
    rw [hmarker]
    norm_num

/-- Of two symbols that may enter the basis, one has a negative coefficient. -/
theorem other_eq_none (hmarks : h.Marks S cost f) (hrow : row.Encodes t S f)
    (hr : t.Represents S cost')
    (hnonneg : ∀ k ∈ h.markers, k.pivotable = true → 0 ≤ row.coefficientFor k) :
    h.other = none := by
  cases hother : h.other with
  | none => rfl
  | some e =>
    obtain ⟨relation, required, hfits⟩ := hmarks.fits
    obtain ⟨sign, hsign, hmarker, hcoefficient⟩ := hmarks.exists_sign hrow hr
    obtain ⟨hpm, hpe⟩ := hfits.pivotable_of_other hother
    have hm := hnonneg _ List.mem_cons_self hpm
    have he := hnonneg e (mem_markers.mpr (.inr hother)) hpe
    rw [hmarker] at hm
    rw [hcoefficient e hother] at he
    rcases hsign with rfl | rfl
    · norm_num at he
    · norm_num at hm

/-- An equation without a variable to solve it for is a required one, and it has no layout
variable. -/
theorem dummy_of_subject?_eq_none (hmarks : h.Marks S cost f) (hrow : row.Encodes t S f)
    (hr : t.Represents S cost') (hsubject : row.subject? h = none) :
    h.marker.dummy = true ∧ h.other = none ∧
      ∀ k, k.unrestricted = true → row.coefficientFor k = 0 := by
  obtain ⟨hzero, hfree⟩ := Row.subject?_eq_none hrow.proper hsubject
  obtain ⟨relation, required, hfits⟩ := hmarks.fits
  have hmarker := hmarks.coefficientFor_marker_ne_zero hrow hr
  refine ⟨(hfits.kind List.mem_cons_self).resolve_left fun hpivotable => ?_,
    hmarks.other_eq_none hrow hr fun k hk hp => (hzero k hk hp).ge, hfree⟩
  exact hmarker (hzero _ List.mem_cons_self hpivotable)

end Marks

end Handle

theorem Certified.congr {exact quiet : Prop} {S S' : Assignment Rat → Prop}
    {cost : Assignment Rat → Rat} {cause : SolverError} (h : Certified exact quiet S cost cause)
    (hS : ∀ v, S v ↔ S' v) : Certified exact quiet S' cost cause := by
  have hsame : S = S' := funext fun v => propext (hS v)
  rwa [← hsame]

namespace Tableau

open Attempt

variable {t t' : Tableau Rat} {S S' : Assignment Rat → Prop} {cost f : Assignment Rat → Rat}
  {row : Row Rat} {k : Key} {handle : Handle} {D : Key → Prop} {exact quiet : Prop}

/-! ## Rows that enter -/

/-- Feasibility is kept when a row enters whose key does not occur in rows of symbols. -/
theorem Feasible.enter (h : t.Feasible)
    (hothers : ∀ k' row', t.rows.get? k' = some row' → k'.unrestricted = false →
      row'.coefficientFor k = 0)
    (hrow : k.unrestricted = false → 0 ≤ row.constant) : (t.enter k row).Feasible := by
  intro k' new hnew hk'
  rcases get?_enter_cases hnew with ⟨rfl, rfl⟩ | ⟨old, hold, rfl⟩
  · exact hrow hk'
  · rw [Row.constant_substitute, hothers k' old hold hk', zero_mul, add_zero]
    exact h k' old hold hk'

/-- A row may be installed for another key, or if it is idle itself. -/
theorem Idle.install (h : t.Idle D) (hproper : ∀ k row, t.rows.get? k = some row → row.Proper)
    (hk : row.coefficientFor k ≠ 0)
    (hrow : D k → row.constant = 0 ∧ ∀ k', row.coefficientFor k' ≠ 0 → D k') :
    (t.install row k).Idle D := by
  refine h.enter hproper fun hidle => ?_
  obtain ⟨hconstant, hkeys⟩ := hrow hidle
  refine ⟨by rw [Row.constant_solveFor hk, hconstant, neg_zero, zero_div],
    fun k' hk' => hkeys k' fun hzero => hk' ?_⟩
  rw [Row.coefficientFor_solveFor hk, hzero, neg_zero, zero_div, ite_self]

theorem Prepared.install (h : t.Prepared exact quiet S cost) (hrow : row.Over t)
    (hproper : row.Proper) (hk : row.coefficientFor k ≠ 0)
    (hfree : k.unrestricted = false → ∀ k', k'.unrestricted = true → row.coefficientFor k' = 0)
    (hidle : exact → k.dummy = true →
      row.constant = 0 ∧ ∀ k', row.coefficientFor k' ≠ 0 → k'.dummy = true) :
    (t.install row k).Prepared exact quiet (fun v => S v ∧ row.evaluate v = 0) cost where
  canonical := h.canonical.install hrow hproper hk hfree
  epsilon hexact := (epsilon_enter t k _).trans (h.epsilon hexact)
  queued hexact := (h.queued hexact).enter k _
  idle hexact hquiet :=
    Idle.install (h.idle hexact hquiet) (fun _ _ => h.represents.proper_row) hk (hidle hexact)

/-- The row of a new symbol is feasible if its constant is, since it occurs nowhere else. -/
theorem Prepared.feasible_install (h : t.Prepared exact quiet S cost) (hfeasible : t.Feasible)
    (hk : Ignores S k) (hconstant : 0 ≤ (row.solveFor k).constant) :
    (t.install row k).Feasible :=
  hfeasible.enter (fun _ _ hrow _ => h.represents.coefficientFor_eq_zero hk hrow)
    fun _ => hconstant

/-! ## Catching up -/

theorem Enduring.prepareFor {P : Tableau Rat → Prop} (hP : Enduring P) (row : Row Rat)
    (handle : Handle) : Keeps (Tableau.prepareFor row handle) P := fun t h =>
  ensures_prepareFor_of (fun _ => h) fun _ _ => hP.solve t h

/-- Preparing for an equation keeps the tableau sound and the equation encoded, and makes the
objective optimal wherever the equation needs that. In exact arithmetic, catching up on an
optimisation does not fail, but for the limit. -/
theorem ensures_prepareFor (h : t.Sound exact quiet S cost) (hbounded : exact → Bounded S cost)
    (hrow : row.Encodes t S f) :
    Ensures (prepareFor row handle) t
      (fun row' t' => t'.Sound exact quiet S cost ∧ row'.Encodes t' S f ∧
        (exact → t'.needsRepair row' (row'.subject? handle) = true → t'.objective.Minimal))
      fun cause _ => (∀ S' cost', Certified exact quiet S' cost' cause) ∧
        (cause = .unsatisfiable → ¬ exact) := by
  refine ensures_prepareFor_of (fun hready => ?_) fun _ _ => ?_
  · refine ⟨h, hrow, fun hexact hneeds => h.optimal hexact (Bool.eq_false_iff.mpr fun hdeferred => ?_)⟩
    exact absurd ((hready hdeferred).2.symm.trans hneeds) nofun
  · refine ((ensures_solve_of_sound h hbounded).and (keeps_solve_nextId t.nextId t rfl)).imp ?_
      fun _ _ => And.left
    rintro _ t' ⟨⟨h', hdeferred⟩, hid⟩
    refine ⟨h', encodes_substituteBasics h'.prepared.represents hrow.proper
      (fun k hk hinternal => ?_) hrow.value, fun hexact _ => h'.optimal hexact hdeferred⟩
    rw [hid]
    exact hrow.over_tableau.known hk hinternal

/-! ## The insertion of an equation -/

/-- What the insertion of an equation leaves: a tableau that one of the methods can start from, and
a feasible one if the constraint may be violated. -/
structure Inserted (exact quiet : Prop) (t : Tableau Rat) (S : Assignment Rat → Prop)
    (cost : Assignment Rat → Rat) (handle : Handle) : Prop where
  prepared : t.Prepared exact quiet S cost
  sign : exact → t.Feasible ∨ t.objective.Minimal
  feasible : exact → handle.other ≠ none → t.Feasible

theorem Prepared.inserted (h : t.Prepared exact quiet S cost) (hfeasible : exact → t.Feasible)
    (hS : ∀ v, S v ↔ S' v) : t.Inserted exact quiet S' cost handle where
  prepared := h.congr_left hS
  sign hexact := .inl (hfeasible hexact)
  feasible hexact _ := hfeasible hexact

/-- A row that is solved for a layout variable is feasible. -/
theorem Sound.feasible_install_free (h : t.Sound exact quiet S cost) (hexact : exact)
    (hk : k.unrestricted = true) : (t.install row k).Feasible :=
  (h.feasible hexact).enter
    (fun _ _ hrow' hk' => h.prepared.canonical.layered.row hrow' hk' hk)
    fun hfalse => absurd (hk.symm.trans hfalse) (Bool.false_ne_true.symm)

/-- A row that is solved for a symbol with a negative coefficient is feasible. -/
theorem Sound.feasible_install_feasible (h : t.Sound exact quiet S cost) (hexact : exact)
    (hrow : row.Encodes t S f) (hmarks : handle.Marks S cost f)
    (hsuits : (Subject.feasible k).Suits row handle) : (t.install row k).Feasible := by
  obtain ⟨⟨hmem, -, hneg⟩, -⟩ := hsuits
  apply h.prepared.feasible_install (h.feasible hexact) (hmarks.ignores k hmem)
  rw [Row.constant_solveFor hneg.ne]
  exact div_nonneg_of_nonpos (neg_nonpos.mpr hrow.nonneg) hneg.le

/-- A row of dummies without a constant is feasible when it is solved for the marker. -/
theorem Sound.feasible_install_redundant (h : t.Sound exact quiet S cost) (hexact : exact)
    (hrow : row.Encodes t S f) (hmarks : handle.Marks S cost f) (hzero : row.constant = 0) :
    (t.install row handle.marker).Feasible := by
  apply h.prepared.feasible_install (h.feasible hexact) (hmarks.ignores _ List.mem_cons_self)
  rw [Row.constant_solveFor (hmarks.coefficientFor_marker_ne_zero hrow h.prepared.represents), hzero,
    neg_zero, zero_div]

/-- A row that is solved for a layout variable adds its equation. -/
theorem Sound.install_free (h : t.Sound exact quiet S cost) (hrow : row.Encodes t S f)
    (hk : k.unrestricted = true) (hcoefficient : row.coefficientFor k ≠ 0) :
    (t.install row k).Inserted exact quiet (fun v => S v ∧ f v = 0) cost handle := by
  have hrestricted : ¬ k.unrestricted = false := fun hfalse => by
    rw [hk] at hfalse
    cases hfalse
  have hprepared := h.prepared.install hrow.over_tableau hrow.proper hcoefficient
    (fun hfalse => absurd hfalse hrestricted)
    fun _ hdummy => absurd (Key.unrestricted_of_dummy hdummy) hrestricted
  exact hprepared.inserted (fun hexact => h.feasible_install_free hexact hk) hrow.solutions_iff

/-- A row that is solved for a symbol with a negative coefficient adds its equation. -/
theorem Sound.install_feasible (h : t.Sound exact quiet S cost) (hrow : row.Encodes t S f)
    (hmarks : handle.Marks S cost f) (hsuits : (Subject.feasible k).Suits row handle) :
    (t.install row k).Inserted exact quiet (fun v => S v ∧ f v = 0) cost handle := by
  have hfeasible := fun hexact => h.feasible_install_feasible hexact hrow hmarks hsuits
  obtain ⟨⟨-, hpivotable, hneg⟩, hfree⟩ := hsuits
  have hprepared := h.prepared.install hrow.over_tableau hrow.proper hneg.ne (fun _ => hfree)
    fun _ hdummy => absurd hdummy (Bool.eq_false_iff.mp (Key.dummy_of_pivotable hpivotable))
  exact hprepared.inserted hfeasible hrow.solutions_iff

/-- A row that is solved for the marker with a positive coefficient adds its equation. It may be
violated, but the objective stays as good as it was, since it does not mention the marker. -/
theorem Sound.install_infeasible (h : t.Sound exact quiet S cost) (hrow : row.Encodes t S f)
    (hmarks : handle.Marks S cost f) (hsuits : (Subject.infeasible k).Suits row handle)
    (hminimal : exact → row.constant ≠ 0 → t.objective.Minimal) :
    (t.install row k).Inserted exact quiet (fun v => S v ∧ f v = 0) cost handle := by
  have hr := h.prepared.represents
  obtain ⟨⟨hmem, hpivotable, hpos⟩, hnonneg, hfree⟩ := hsuits
  have hother : handle.other = none := hmarks.other_eq_none hrow hr hnonneg
  have hk : k = handle.marker := (Handle.mem_markers.mp hmem).resolve_right fun hk => by
    rw [hother] at hk
    cases hk
  have hprepared := h.prepared.install hrow.over_tableau hrow.proper hpos.ne' (fun _ => hfree)
    fun _ hdummy => absurd hdummy (Bool.eq_false_iff.mp (Key.dummy_of_pivotable hpivotable))
  refine ⟨hprepared.congr_left hrow.solutions_iff, fun hexact => ?_, fun _ hne => absurd hother hne⟩
  -- With the constant zero the row is feasible; else the dual method will repair it
  by_cases hzero : row.constant = 0
  · refine .inl (h.prepared.feasible_install (h.feasible hexact) (hmarks.ignores k hmem) ?_)
    rw [Row.constant_solveFor hpos.ne', hzero, neg_zero, zero_div]
  · have hobjective : (t.install row k).objective =
        t.objective.substitute (.unit k) (row.solveFor k) :=
      Option.some_inj.mp (targetRow_enter t k _ .objective)
    have hunpriced : t.objective.coefficientFor k = 0 :=
      hr.objective_coefficientFor_eq_zero (hmarks.ignores k hmem) (hk ▸ hmarks.cost hother)
    refine .inr fun k' hk' => ?_
    rw [hobjective, Row.coefficientFor_substitute hr.proper_objective, hunpriced, zero_mul,
      add_zero]
    split
    · exact le_rfl
    · exact hminimal hexact hzero k' hk'

/-- A row of dummies without a constant is kept under the dummy of the constraint. -/
theorem Sound.install_redundant (h : t.Sound exact quiet S cost) (hrow : row.Encodes t S f)
    (hmarks : handle.Marks S cost f)
    (hfree : ∀ k, k.unrestricted = true → row.coefficientFor k = 0)
    (hall : ∀ k, row.coefficientFor k ≠ 0 → k.dummy = true) (hzero : exact → row.constant = 0) :
    (t.install row handle.marker).Inserted exact quiet (fun v => S v ∧ f v = 0) cost handle := by
  have hmarker := hmarks.coefficientFor_marker_ne_zero hrow h.prepared.represents
  have hprepared := h.prepared.install hrow.over_tableau hrow.proper hmarker (fun _ => hfree)
    fun hexact _ => ⟨hzero hexact, hall⟩
  exact hprepared.inserted
    (fun hexact => h.feasible_install_redundant hexact hrow hmarks (hzero hexact)) hrow.solutions_iff

/-- A sound tableau takes an equation in, or finds that no admissible solution meets it. -/
theorem ensures_insertRow (h : t.Sound exact quiet S cost) (hbounded : exact → Bounded S cost)
    (hplain : ∀ k, k.Rowless → Ignores S k ∧ CostIgnores cost k ∧ Slope f k 0)
    (hrow : row.Encodes t S f) (hmarks : handle.Marks S cost f) :
    Ensures (insertRow row handle) t
      (fun _ t' => t'.Inserted exact quiet (fun v => S v ∧ f v = 0) cost handle)
      fun cause _ => Certified exact quiet (fun v => S v ∧ f v = 0) cost cause ∧
        (cause = .unsatisfiable → exact → handle.other = none) := by
  refine ensures_insertRow_of ((ensures_prepareFor h hbounded hrow).imp (fun _ _ => id)
    fun cause _ ⟨hcertified, hnot⟩ =>
      ⟨hcertified _ _, fun hcause hexact => absurd hexact (hnot hcause)⟩) ?_ ?_ ?_ ?_
  all_goals clear hrow h
  · rintro row t subject ⟨h, hrow, hminimal⟩ hsubject
    have hsuits := Row.subject?_suits hrow.proper hsubject
    cases subject with
    | free k => exact h.install_free hrow hsuits.1 hsuits.2
    | feasible k => exact h.install_feasible hrow hmarks hsuits
    | infeasible k =>
      refine h.install_infeasible hrow hmarks hsuits fun hexact hconstant => hminimal hexact ?_
      rw [hsubject]
      apply decide_eq_true
      rw [h.prepared.epsilon hexact]
      exact lt_of_le_of_ne hrow.nonneg (Ne.symm hconstant)
  · rintro row t ⟨h, hrow, -⟩ hsubject hdummies hconstant
    have hother := (hmarks.dummy_of_subject?_eq_none hrow h.prepared.represents hsubject).2.1
    refine ⟨fun hexact _ hsolution => ?_, fun _ _ => hother⟩
    rw [h.prepared.epsilon hexact, hrow.constant_eq_zero ((Row.allDummies_iff hrow.proper).mp hdummies)
      hsolution, Scalar.magnitude_rat, abs_zero] at hconstant
    exact absurd hconstant (lt_irrefl 0)
  · rintro row t ⟨h, hrow, -⟩ hsubject hdummies hconstant
    have hfree := (hmarks.dummy_of_subject?_eq_none hrow h.prepared.represents hsubject).2.2
    apply h.install_redundant hrow hmarks hfree ((Row.allDummies_iff hrow.proper).mp hdummies)
    intro hexact
    rw [Scalar.magnitude_rat, h.prepared.epsilon hexact, not_lt] at hconstant
    exact abs_nonpos_iff.mp hconstant
  · rintro row t ⟨h, hrow, -⟩ hsubject hdummies
    have hr := h.prepared.represents
    obtain ⟨-, hother, hfree⟩ := hmarks.dummy_of_subject?_eq_none hrow hr hsubject
    have hpivotable := hrow.exists_pivotable hr (fun k hk => ⟨(hplain k hk).1, (hplain k hk).2.2⟩)
      hfree fun hall => hdummies ((Row.allDummies_iff hrow.proper).mpr hall)
    refine (ensures_addWithArtificial h.prepared h.feasible
      (fun k hk => ⟨(hplain k hk).1, (hplain k hk).2.1⟩) hrow.over_tableau hrow.proper hrow.nonneg
      hfree (hmarks.ignores _ List.mem_cons_self) (hmarks.coefficientFor_marker_ne_zero hrow hr)
      hpivotable).imp ?_ ?_
    · rintro _ t' ⟨h', hfeasible⟩
      exact h'.inserted hfeasible hrow.solutions_iff
    · intro cause _ hcertified
      exact ⟨hcertified.congr hrow.solutions_iff, fun _ _ => hother⟩

/-- How the equation of a new constraint depends on its symbols, which occur nowhere yet. -/
theorem Represents.marks (h : t.Represents S cost) (hnew : ∀ k, ¬ t.Known k → CostIgnores cost k)
    {c : Constraint Rat} (hc : c.OverLayout) (s : Strength Rat) {relation : Relation}
    {required : Bool} (hfits : handle.Fits relation required) (hfresh : handle.Fresh t.nextId) :
    handle.Marks S (fun v => cost v + handle.price s v) (c.equation handle) := by
  have hunknown : ∀ k ∈ handle.markers, ¬ t.Known k := fun k hk hknown =>
    absurd (hknown (hfresh.internal k hk)) (not_lt.mpr (hfresh.le k hk))
  exact handle.marks_equation hc hfits hfresh.nodup
    (fun k hk => h.ignores_of_not_known (hunknown k hk)) fun k hk => hnew k (hunknown k hk)

/-- A sound tableau takes a constraint in and stays sound, or finds that no admissible solution
meets its equation. A constraint that may be violated contradicts nothing. -/
theorem ensures_addConstraint (h : t.Sound exact quiet S cost)
    (hplain : ∀ k, k.Rowless → Ignores S k ∧ CostIgnores cost k)
    (hnew : ∀ k, ¬ t.Known k → CostIgnores cost k)
    (hnonneg : exact → ∀ v : Assignment Rat, v.Nonnegative → 0 ≤ cost v)
    {c : Constraint Rat} (hc : c.OverLayout) {s : Strength Rat} (hs : exact → 0 ≤ s.value)
    (defer : Bool) :
    Ensures (addConstraint c s defer) t
      (fun handle t' => (handle.Fits c.relation s.isRequired ∧ handle.Fresh t.nextId) ∧
        t'.Sound exact quiet (fun v => S v ∧ c.equation handle v = 0)
          (fun v => cost v + handle.price s v) ∧ (defer = false → t'.deferred = false))
      fun cause _ => (∃ i, cause = .indexSpaceExhausted i) ∨
        ∃ handle : Handle, (handle.Fits c.relation s.isRequired ∧ handle.Fresh t.nextId) ∧
          Certified exact quiet (fun v => S v ∧ c.equation handle v = 0)
            (fun v => cost v + handle.price s v) cause ∧
          (cause = .unsatisfiable → exact → s.isRequired = true) := by
  unfold addConstraint
  rw [ensures_bind]
  refine (ensures_createRow h hc hs).imp ?_ fun _ _ => .inl
  rintro ⟨row, handle⟩ t₁ ⟨hfits, hfresh, h₁, hrow⟩
  dsimp only at hfits hfresh h₁ hrow ⊢
  have hmarks := h.prepared.represents.marks hnew hc s hfits hfresh
  have hbounded : exact → Bounded S fun v => cost v + handle.price s v := fun hexact =>
    hfits.bounded_price (hnonneg hexact) (hs hexact)
  have hrequired : handle.other = none → s.isRequired = true := hfits.required_of_other
  rw [ensures_bind]
  refine (ensures_insertRow h₁ hbounded (hfits.plain hc hplain) hrow hmarks).imp ?_
    fun cause _ ⟨hcertified, hother⟩ => .inr ⟨handle, ⟨hfits, hfresh⟩, hcertified,
      fun hcause hexact => hrequired (hother hcause hexact)⟩
  intro _ t₂ h₂
  rw [ensures_bind]
  refine (ensures_finish defer h₂.prepared h₂.sign).imp ?_ fun cause _ ⟨hcertified, hinfeasible⟩ =>
    .inr ⟨handle, ⟨hfits, hfresh⟩, hcertified, fun hcause hexact => ?_⟩
  · rintro _ t₃ ⟨h₃, hdeferred⟩
    rw [ensures_pure]
    exact ⟨⟨hfits, hfresh⟩, h₃, hdeferred⟩
  · refine hrequired (by_contra fun hother => ?_)
    exact hinfeasible hcause hexact (h₂.feasible hexact hother)

end Tableau

end Cassowary
