import Cassowary.Proofs.Books

/-!
# What solutions of the equations mean

A constraint with its symbols is an equation. Where no symbol is negative, the equation of a
required inequality says what the inequality says; that of a required equality does if its dummy is
zero; and the errors of any other constraint cost at least what its violation costs.

The other way round, each choice of values for the layout variables settles the symbols: the markers
make up what is missing, and the others what is too much. If the choice meets the required
constraints, all equations are met, and then the errors cost exactly what the violations cost.

## Main definitions

* `State.settle` — the values of the symbols that a choice of layout variables asks for

## Main results

* `State.Tidy.feasible_iff` — solutions without negative symbols, and their dummies
* `State.Tidy.cost_le_charge` — violations cost no more than the errors
* `State.Tidy.equations_settle`, `State.Tidy.admissible_settle`, `State.Tidy.charge_settle` —
  settled symbols
-/

namespace Cassowary

/-! ## One constraint -/

namespace Constraint

variable {c : Constraint Rat} {v w : Assignment Rat}

/-- The value of a constraint depends on layout variables only. -/
theorem value_congr (hc : c.OverLayout) (hsame : ∀ k, k.unrestricted = true → v k = w k) :
    c.value v = c.value w := by
  unfold value
  refine congrArg (· + c.constant) (congrArg List.sum (List.map_congr_left fun t ht => ?_))
  exact congrArg (t.coefficient * ·) (hsame _ (hc t ht))

theorem holds_congr (hc : c.OverLayout) (hsame : ∀ k, k.unrestricted = true → v k = w k) :
    c.Holds v ↔ c.Holds w := by
  rw [Holds, Holds, value_congr hc hsame]

theorem violation_congr (hc : c.OverLayout) (hsame : ∀ k, k.unrestricted = true → v k = w k) :
    c.violation v = c.violation w := by
  rw [violation, violation, value_congr hc hsame]

theorem violation_of_equal (hc : c.relation = .equal) (v : Assignment Rat) :
    c.violation v = max 0 (-c.value v) + max 0 (c.value v) := by
  rw [violation, hc]
  dsimp only
  rw [Scalar.magnitude_rat]
  rcases le_total (c.value v) 0 with hneg | hnonneg
  · rw [abs_of_nonpos hneg, max_eq_right (neg_nonneg.mpr hneg), max_eq_left hneg, add_zero]
  · rw [abs_of_nonneg hnonneg, max_eq_left (neg_nonpos.mpr hnonneg), max_eq_right hnonneg, zero_add]

theorem violation_of_lessOrEqual (hc : c.relation = .lessOrEqual) (v : Assignment Rat) :
    c.violation v = max 0 (c.value v) := by
  rw [violation, hc]
  exact Scalar.atLeast_rat 0 _

end Constraint

namespace Handle

variable {h : Handle} {c : Constraint Rat} {s : Strength Rat} {v : Assignment Rat}
  {relation : Relation} {k : Key}

/-- A required constraint costs nothing. -/
theorem Fits.price_of_required (hfits : h.Fits relation true) (s : Strength Rat)
    (v : Assignment Rat) : h.price s v = 0 := by
  rw [price, hfits.prices_of_required]
  rfl

theorem Fits.price_of_lessOrEqual (hfits : h.Fits .lessOrEqual false) (hother : h.other = some k)
    (s : Strength Rat) (v : Assignment Rat) : h.price s v = s.value * v k := by
  rw [price, hfits.prices_of_lessOrEqual hother, List.map_cons, List.map_nil, List.sum_cons,
    List.sum_nil, add_zero]

theorem Fits.price_of_equal (hfits : h.Fits .equal false) (hother : h.other = some k)
    (s : Strength Rat) (v : Assignment Rat) :
    h.price s v = s.value * (v h.marker + v k) := by
  rw [price, hfits.prices_of_equal hother, List.map_cons, List.map_cons, List.map_nil,
    List.sum_cons, List.sum_cons, List.sum_nil, add_zero, mul_add]

/-- Where no symbol is negative, a required constraint holds if its equation does, but a dummy has
to be zero for that. -/
theorem Fits.holds_iff (hfits : h.Fits c.relation true) (hv : c.equation h v = 0)
    (hnonneg : v.Nonnegative) : c.Holds v ↔ (h.marker.dummy = true → v h.marker = 0) := by
  have hmarker := hnonneg h.marker (hfits.unrestricted List.mem_cons_self)
  unfold Constraint.Holds
  cases hrelation : c.relation with
  | lessOrEqual =>
    rw [hrelation] at hfits
    obtain ⟨hkind, hother⟩ := hfits
    rw [Constraint.equation, hother, Option.elim_none] at hv
    refine ⟨fun _ hdummy => ?_, fun _ => ?_⟩
    · rw [Key.dummy, hkind] at hdummy
      cases hdummy
    · dsimp only
      linarith
  | equal =>
    rw [hrelation] at hfits
    obtain ⟨hkind, hother⟩ := hfits
    rw [Constraint.equation, hother, Option.elim_none] at hv
    refine ⟨fun hzero _ => ?_, fun hzero => ?_⟩
    · dsimp only at hzero
      linarith
    · have hdummy := hzero (by rw [Key.dummy, hkind]; rfl)
      dsimp only
      linarith

/-- Errors that are not negative cost at least what the violation costs. -/
theorem Fits.violation_le_price (hfits : h.Fits c.relation false) (hv : c.equation h v = 0)
    (hs : 0 ≤ s.value) (hnonneg : v.Nonnegative) : s.value * c.violation v ≤ h.price s v := by
  have hsymbol : ∀ k ∈ h.markers, 0 ≤ v k := fun k hk => hnonneg k (hfits.unrestricted hk)
  have hmarker := hsymbol h.marker List.mem_cons_self
  cases hrelation : c.relation with
  | lessOrEqual =>
    rw [hrelation] at hfits
    obtain ⟨k, hother, -⟩ := hfits.2
    have hk := hsymbol k (mem_markers.mpr (.inr hother))
    rw [Constraint.equation, hother, Option.elim_some] at hv
    rw [c.violation_of_lessOrEqual hrelation, hfits.price_of_lessOrEqual hother]
    exact mul_le_mul_of_nonneg_left (max_le hk (by linarith)) hs
  | equal =>
    rw [hrelation] at hfits
    obtain ⟨k, hother, -⟩ := hfits.2
    have hk := hsymbol k (mem_markers.mpr (.inr hother))
    rw [Constraint.equation, hother, Option.elim_some] at hv
    rw [c.violation_of_equal hrelation, hfits.price_of_equal hother]
    refine mul_le_mul_of_nonneg_left (add_le_add ?_ ?_) hs
    · exact max_le hmarker (by linarith)
    · exact max_le hk (by linarith)

/-- Where the marker is what is missing and the other symbol what is too much, the errors cost what
the violation costs. -/
theorem Fits.price_eq_violation (hfits : h.Fits c.relation false)
    (hmarker : v h.marker = max 0 (-c.value v))
    (hother : ∀ k, h.other = some k → v k = max 0 (c.value v)) (s : Strength Rat) :
    h.price s v = s.value * c.violation v := by
  cases hrelation : c.relation with
  | lessOrEqual =>
    rw [hrelation] at hfits
    obtain ⟨k, hk, -⟩ := hfits.2
    rw [c.violation_of_lessOrEqual hrelation, hfits.price_of_lessOrEqual hk, hother k hk]
  | equal =>
    rw [hrelation] at hfits
    obtain ⟨k, hk, -⟩ := hfits.2
    rw [c.violation_of_equal hrelation, hfits.price_of_equal hk, hother k hk, hmarker]

/-- Where only one of the two symbols is not zero, they are what is missing and what is too much. -/
theorem Fits.price_eq_of_eq_zero (hfits : h.Fits c.relation false) (hv : c.equation h v = 0)
    (hnonneg : v.Nonnegative) (hzero : ∀ k, h.other = some k → v h.marker = 0 ∨ v k = 0)
    (s : Strength Rat) : h.price s v = s.value * c.violation v := by
  cases hother : h.other with
  | none => exact absurd (hfits.required_of_other hother) Bool.false_ne_true
  | some k =>
    have hmarker := hnonneg h.marker (hfits.unrestricted List.mem_cons_self)
    have hk := hnonneg k (hfits.unrestricted (mem_markers.mpr (.inr hother)))
    rw [Constraint.equation, hother, Option.elim_some] at hv
    refine hfits.price_eq_violation ?_ (fun k' hk' => ?_) s
    · rcases hzero k hother with heq | heq
      · rw [heq, max_eq_left (by linarith)]
      · rw [max_eq_right (by linarith)]
        linarith
    · cases hother.symm.trans hk'
      rcases hzero k hother with heq | heq
      · rw [max_eq_right (by linarith)]
        linarith
      · rw [heq, max_eq_left (by linarith)]

/-- A marker that is what is missing and another symbol that is what is too much meet the equation,
if the constraint holds or need not. -/
theorem Fits.equation_eq_zero {required : Bool} (hfits : h.Fits c.relation required)
    (hmarker : v h.marker = max 0 (-c.value v))
    (hother : ∀ k, h.other = some k → v k = max 0 (c.value v))
    (hholds : required = true → c.Holds v) : c.equation h v = 0 := by
  have hbalance : c.value v + max 0 (-c.value v) - max 0 (c.value v) = 0 := by
    rcases le_total 0 (c.value v) with hsign | hsign
    · rw [max_eq_left (neg_nonpos.mpr hsign), max_eq_right hsign]
      ring
    · rw [max_eq_right (neg_nonneg.mpr hsign), max_eq_left hsign]
      ring
  rw [Constraint.equation, hmarker]
  cases hk : h.other with
  | some k => rw [Option.elim_some, hother k hk, hbalance]
  | none =>
    -- Without another symbol, nothing is too much
    have hle : c.value v ≤ 0 := by
      have hv := hholds (hfits.required_of_other hk)
      unfold Constraint.Holds at hv
      split at hv
      · exact hv.le
      · exact hv
    rw [max_eq_left hle] at hbalance
    rw [Option.elim_none, hbalance]

end Handle

/-! ## All constraints -/

namespace State

variable {s : State Rat} {h : Handle} {r : Record Rat} {k : Key} {v w : Assignment Rat}

theorem feasible_iff_get? : s.Feasible v ↔ ∀ h r, s.constraints.get? h = some r →
    r.strength.isRequired = true → (s.current h r).Holds v := by
  simp only [Feasible, held, List.mem_map, Table.get?_eq_some_iff]
  constructor
  · exact fun hv h r hr => hv _ ⟨(h, r), hr, rfl⟩
  · rintro hv _ ⟨⟨h, r⟩, hr, rfl⟩
    exact hv h r hr

theorem cost_eq (s : State Rat) (v : Assignment Rat) :
    s.cost v = (s.constraints.entries.map fun e =>
      if e.2.strength.isRequired = true then 0
      else e.2.strength.value * (s.current e.1 e.2).violation v).sum := by
  unfold cost held
  induction s.constraints.entries with
  | nil => rfl
  | cons e rest ih =>
    rw [List.map_cons, List.map_cons, List.sum_cons, ← ih]
    by_cases hrequired : e.2.strength.isRequired = true
    · rw [List.filter_cons_of_neg (by simpa using hrequired), if_pos hrequired, zero_add]
    · rw [List.filter_cons_of_pos (by simpa using hrequired), if_neg hrequired, List.map_cons,
        List.sum_cons]

/-- Feasibility depends on layout variables only. -/
theorem Tidy.feasible_congr (hs : s.Tidy) (hsame : ∀ k, k.unrestricted = true → v k = w k) :
    s.Feasible v ↔ s.Feasible w := by
  rw [feasible_iff_get?, feasible_iff_get?]
  refine forall_congr' fun h => forall_congr' fun r => imp_congr_right fun hr => ?_
  exact imp_congr_right fun _ => (s.current h r).holds_congr (hs.overLayout_current hr) hsame

theorem Tidy.cost_congr (hs : s.Tidy) (hsame : ∀ k, k.unrestricted = true → v k = w k) :
    s.cost v = s.cost w := by
  rw [cost_eq, cost_eq]
  refine congrArg List.sum (List.map_congr_left fun e he => ?_)
  have hc := hs.overLayout_current (Table.get?_eq_some_iff.mpr he)
  rw [(s.current e.1 e.2).violation_congr hc hsame]

theorem Tidy.fits_current (hs : s.Tidy) (hr : s.constraints.get? h = some r) :
    h.Fits (s.current h r).relation r.strength.isRequired := by
  rw [hs.relation_current hr]
  exact hs.fits h r hr

/-- A solution without negative symbols meets the required constraints if the dummies are zero, and
only then. -/
theorem Tidy.feasible_iff (hs : s.Tidy) (hv : s.Equations v) (hnonneg : v.Nonnegative) :
    s.Feasible v ↔
      ∀ h r, s.constraints.get? h = some r → h.marker.dummy = true → v h.marker = 0 := by
  rw [equations_iff] at hv
  rw [feasible_iff_get?]
  refine forall_congr' fun h => forall_congr' fun r => imp_congr_right fun hr => ?_
  have hfits := hs.fits_current hr
  constructor
  · intro hholds hdummy
    have hrequired : r.strength.isRequired = true := by
      by_contra hsoft
      rw [Bool.not_eq_true] at hsoft
      rw [hsoft] at hfits
      have hkind : h.marker.kind = .dummy := of_decide_eq_true hdummy
      cases hrelation : (s.current h r).relation <;> rw [hrelation] at hfits <;>
        cases hkind.symm.trans hfits.1
    rw [hrequired] at hfits
    exact (hfits.holds_iff (hv h r hr) hnonneg).mp (hholds hrequired) hdummy
  · intro hzero hrequired
    rw [hrequired] at hfits
    exact (hfits.holds_iff (hv h r hr) hnonneg).mpr hzero

/-- Violations cost no more than errors that are not negative. -/
theorem Tidy.cost_le_charge (hs : s.Tidy)
    (hpriced : ∀ h r, s.constraints.get? h = some r → 0 ≤ r.strength.value) (hv : s.Equations v)
    (hnonneg : v.Nonnegative) : s.cost v ≤ s.charge v := by
  rw [cost_eq]
  apply List.sum_le_sum
  intro e he
  have hr := Table.get?_eq_some_iff.mpr he
  have hfits := hs.fits_current hr
  split
  · next hrequired =>
    rw [hrequired] at hfits
    rw [hfits.price_of_required]
  · next hsoft =>
    rw [Bool.not_eq_true] at hsoft
    rw [hsoft] at hfits
    exact hfits.violation_le_price (equations_iff.mp hv _ _ hr) (hpriced _ _ hr) hnonneg

/-! ## Settled symbols -/

/-- The values of the symbols that a choice of values for layout variables asks for: the markers
make up what is missing to zero, and the other symbols what is too much. -/
def settle (s : State Rat) (w : Assignment Rat) : Assignment Rat := fun k =>
  if k.unrestricted then w k
  else match s.constraints.entries.find? (k ∈ ·.1.markers) with
    | some (h, r) =>
      max 0 (if k = h.marker then -(s.current h r).value w else (s.current h r).value w)
    | none => 0

theorem settle_of_unrestricted (s : State Rat) (w : Assignment Rat) (hk : k.unrestricted = true) :
    s.settle w k = w k := by
  rw [settle, if_pos hk]

theorem settle_of_forall_notMem (hk : k.unrestricted = false)
    (hmem : ∀ h r, s.constraints.get? h = some r → k ∉ h.markers) : s.settle w k = 0 := by
  have hfind : s.constraints.entries.find? (k ∈ ·.1.markers) = none :=
    List.find?_eq_none.mpr fun e he hk =>
      hmem e.1 e.2 (Table.get?_eq_some_iff.mpr he) (of_decide_eq_true hk)
  rw [settle, if_neg (by rw [hk]; exact Bool.false_ne_true), hfind]

theorem Tidy.settle_of_mem (hs : s.Tidy) (hr : s.constraints.get? h = some r) (hk : k ∈ h.markers) :
    s.settle w k =
      max 0 (if k = h.marker then -(s.current h r).value w else (s.current h r).value w) := by
  have hrestricted : k.unrestricted = false := (hs.fits h r hr).unrestricted hk
  rw [settle, if_neg (by rw [hrestricted]; exact Bool.false_ne_true)]
  cases hfind : s.constraints.entries.find? (k ∈ ·.1.markers) with
  | none =>
    have hnot := List.find?_eq_none.mp hfind _ (Table.get?_eq_some_iff.mp hr)
    exact absurd (decide_eq_true hk) hnot
  | some found =>
    obtain ⟨h', r'⟩ := found
    have hr' := Table.get?_eq_some_iff.mpr (List.mem_of_find?_eq_some hfind)
    have hk' := List.find?_some hfind
    have hsame := hs.apart h' r' h r k hr' hr (of_decide_eq_true hk') hk
    subst hsame
    cases hr'.symm.trans hr
    rfl

section Settled

variable (hs : s.Tidy)

include hs

theorem Tidy.value_settle (hr : s.constraints.get? h = some r) :
    (s.current h r).value (s.settle w) = (s.current h r).value w :=
  (s.current h r).value_congr (hs.overLayout_current hr) fun _ hk => s.settle_of_unrestricted w hk

theorem Tidy.settle_marker (hr : s.constraints.get? h = some r) :
    s.settle w h.marker = max 0 (-(s.current h r).value (s.settle w)) := by
  rw [hs.settle_of_mem hr List.mem_cons_self, if_pos rfl, hs.value_settle hr]

theorem Tidy.settle_other (hr : s.constraints.get? h = some r) (hother : h.other = some k) :
    s.settle w k = max 0 ((s.current h r).value (s.settle w)) := by
  have hne : k ≠ h.marker := by
    rintro rfl
    have hnodup := hs.nodup h r hr
    simp [Handle.markers, hother] at hnodup
  rw [hs.settle_of_mem hr (Handle.mem_markers.mpr (.inr hother)), if_neg hne, hs.value_settle hr]

/-- Settled symbols meet all equations, if the required constraints hold. -/
theorem Tidy.equations_settle (hw : s.Feasible w) : s.Equations (s.settle w) := by
  have hw := (hs.feasible_congr fun k hk => s.settle_of_unrestricted w hk).mpr hw
  apply equations_iff.mpr
  intro h r hr
  exact (hs.fits_current hr).equation_eq_zero (hs.settle_marker hr) (fun _ => hs.settle_other hr)
    (feasible_iff_get?.mp hw h r hr)

/-- No settled symbol is negative, and the dummies are zero if the required constraints hold. -/
theorem Tidy.admissible_settle (hw : s.Feasible w) : (s.settle w).Admissible := by
  have hnonneg : (s.settle w).Nonnegative := fun k hk => by
    by_cases hmem : ∃ h r, s.constraints.get? h = some r ∧ k ∈ h.markers
    · obtain ⟨h, r, hr, hmem⟩ := hmem
      rw [hs.settle_of_mem hr hmem]
      exact le_max_left 0 _
    · rw [settle_of_forall_notMem hk fun h r hr hk => hmem ⟨h, r, hr, hk⟩]
  refine ⟨hnonneg, fun k hk hpivotable => ?_⟩
  by_cases hmem : ∃ h r, s.constraints.get? h = some r ∧ k ∈ h.markers
  · obtain ⟨h, r, hr, hmem⟩ := hmem
    have hdummy : k.dummy = true := ((hs.fits h r hr).kind hmem).resolve_left fun hp => by
      rw [hpivotable] at hp
      cases hp
    have hmarker : k = h.marker := (Handle.mem_markers.mp hmem).resolve_right fun hother => by
      rw [((hs.fits h r hr).pivotable_of_other hother).2] at hpivotable
      cases hpivotable
    have hfeasible := (hs.feasible_congr fun k hk => s.settle_of_unrestricted w hk).mpr hw
    rw [hmarker]
    exact (hs.feasible_iff (hs.equations_settle hw) hnonneg).mp hfeasible h r hr (hmarker ▸ hdummy)
  · exact settle_of_forall_notMem hk fun h r hr hk => hmem ⟨h, r, hr, hk⟩

/-- Settled errors cost what the violations cost. -/
theorem Tidy.charge_settle (w : Assignment Rat) : s.charge (s.settle w) = s.cost w := by
  rw [← hs.cost_congr fun k hk => s.settle_of_unrestricted w hk, cost_eq]
  refine congrArg List.sum (List.map_congr_left fun e he => ?_)
  have hr := Table.get?_eq_some_iff.mpr he
  have hfits := hs.fits_current hr
  split
  · next hrequired =>
    rw [hrequired] at hfits
    rw [hfits.price_of_required]
  · next hsoft =>
    rw [Bool.not_eq_true] at hsoft
    rw [hsoft] at hfits
    exact hfits.price_eq_violation (hs.settle_marker hr) (fun _ => hs.settle_other hr) _

end Settled

end State

end Cassowary
