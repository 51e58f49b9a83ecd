import Cassowary.Proofs.Insertion

/-!
# What moving a target comes to

The target of an equality stands in its equation beside the two error variables. So the solutions
for the new target are those for the old one with the first error moved, or with the second one
moved the other way. The constants that move with the target make the rows say so, and the dual
method repairs the rows that have become infeasible.

## Main definitions

* `Handle.Moves` — the solutions for a new target

## Main results

* `Tableau.solves_shift` — moved constants describe moved solutions
* `Tableau.Prepared.targetShift` — a target moved
* `Tableau.ensures_suggest` — the target moved and the tableau repaired
-/

namespace Cassowary

/-- The new solutions are the old ones with the target of an equality moved by `delta`: they come
from the old ones by moving the first error, and also by moving the second one the other way. -/
structure Handle.Moves (h : Handle) (other : Key) (delta : Rat) (S S' : Assignment Rat → Prop)
    (cost : Assignment Rat → Rat) : Prop where
  fits : h.marker.kind = .error ∧ h.other = some other ∧ other.kind = .error
  plus : ∀ v, S' v ↔ S (Function.update v h.marker (v h.marker - delta))
  minus : ∀ v, S' v ↔ S (Function.update v other (v other + delta))
  cost_plus : ∃ a, Slope cost h.marker a
  cost_minus : ∃ a, Slope cost other a

namespace Tableau

open Attempt

variable {t : Tableau Rat} {S S' : Assignment Rat → Prop} {cost : Assignment Rat → Rat}
  {row new : Row Rat} {k plus minus : Key} {handle : Handle} {delta : Rat} {exact quiet : Prop}
  {change : Key → Row Rat → Option Rat}

/-! ## Moved constants -/

/-- A row of a shifted tableau is an old row with its constant moved. -/
theorem get?_shift (hnew : (t.shift change).rows.get? k = some new) :
    ∃ row, t.rows.get? k = some row ∧ new = row.addConstant ((change k row).getD 0) := by
  unfold shift reviseAndQueue at hnew
  rw [get?_revise] at hnew
  obtain ⟨row, hrow, rfl⟩ := Option.map_eq_some_iff.mp hnew
  refine ⟨row, hrow, ?_⟩
  cases change k row with
  | none =>
    rw [Option.map_none, Option.getD_none, Option.getD_none, Row.addConstant, add_zero]
  | some amount => rfl

theorem targetRow_shift (t : Tableau Rat) (change : Key → Row Rat → Option Rat) (target : Target) :
    (t.shift change).targetRow target = t.targetRow target := by
  cases target <;> rfl

/-- Moved constants describe solutions that are moved by as much. -/
theorem solves_shift {move : Assignment Rat → Assignment Rat} (v : Assignment Rat)
    (hmove : ∀ k row, t.rows.get? k = some row →
      move v k - row.evaluate (move v) = v k - (row.evaluate v + (change k row).getD 0)) :
    (t.shift change).Solves v ↔ t.Solves (move v) := by
  rw [solves_iff, solves_iff]
  -- Each row misses its key by as much before the move as after it
  constructor
  · intro hv k row hrow
    have hnew : (t.shift change).rows.get? k =
        some (((change k row).map row.addConstant).getD row) := by
      unfold shift reviseAndQueue
      rw [get?_revise, hrow, Option.map_some]
    obtain ⟨row', hrow', heq⟩ := get?_shift hnew
    rw [hrow] at hrow'
    cases hrow'
    have hvalue := hv k _ hnew
    rw [heq, Row.evaluate_addConstant] at hvalue
    linarith [hmove k row hrow]
  · intro hv k new hnew
    obtain ⟨row, hrow, rfl⟩ := get?_shift hnew
    rw [Row.evaluate_addConstant]
    linarith [hmove k row hrow, hv k row hrow]

/-- Constants may be moved as long as the cost moves by a constant. -/
theorem Represents.shift (h : t.Represents S cost) (move : Assignment Rat → Assignment Rat)
    (hmove : ∀ v k row, t.rows.get? k = some row →
      move v k - row.evaluate (move v) = v k - (row.evaluate v + (change k row).getD 0))
    (hS : ∀ v, S' v ↔ S (move v)) (hcost : ∃ x, ∀ v, cost (move v) = cost v + x)
    (hobjective : ∃ x, ∀ v, t.objective.evaluate (move v) = t.objective.evaluate v + x) :
    (t.shift change).Represents S' cost where
  separated := h.separated.shift change
  proper_row {k new} hnew := by
    obtain ⟨row, hrow, rfl⟩ := get?_shift hnew
    exact (h.proper_row hrow).addConstant _
  proper_target {target row} hrow :=
    h.proper_target ((targetRow_shift t change target).symm.trans hrow)
  solves_iff v := by rw [solves_shift v (hmove v), h.solves_iff, hS]
  exists_offset := by
    obtain ⟨offset, hoffset⟩ := h.exists_offset
    obtain ⟨x, hx⟩ := hcost
    obtain ⟨y, hy⟩ := hobjective
    refine ⟨offset + y - x, fun v hv => ?_⟩
    have hvalue := hoffset _ ((hS v).mp hv)
    rw [hx, hy] at hvalue
    have hsame : (t.shift change).objective = t.objective := rfl
    rw [hsame]
    linarith

/-- Moving a basic variable moves the constant of its row. -/
theorem Represents.shift_basic (h : t.Represents S cost) {b : Key} {x : Rat}
    (hb : t.isBasic b = true) (hchange : ∀ k row, (change k row).getD 0 = if k = b then x else 0)
    (hS : ∀ v, S' v ↔ S (Function.update v b (v b - x))) (hcost : ∃ a, Slope cost b a) :
    (t.shift change).Represents S' cost := by
  obtain ⟨a, ha⟩ := hcost
  refine h.shift (fun v => Function.update v b (v b - x)) (fun v k row hrow => ?_) hS
    ⟨-(a * x), fun v => by rw [ha]; ring⟩ ⟨0, fun v => ?_⟩
  · rw [Row.evaluate_update, (h.over_row hrow).coefficientFor_basic (h.proper_row hrow) hb, hchange]
    by_cases hk : k = b
    · rw [hk, Function.update_self, if_pos rfl]
      ring
    · rw [Function.update_of_ne hk, if_neg hk]
      ring
  · rw [Row.evaluate_update, h.separated.objective.coefficientFor_basic h.proper_objective hb,
      zero_mul]

/-- Moving another variable moves the constants of all rows that it occurs in. -/
theorem Represents.shift_free (h : t.Represents S cost) {b : Key} {x : Rat}
    (hb : t.isBasic b = false)
    (hchange : ∀ k row, (change k row).getD 0 = -row.coefficientFor b * x)
    (hS : ∀ v, S' v ↔ S (Function.update v b (v b - x))) (hcost : ∃ a, Slope cost b a) :
    (t.shift change).Represents S' cost := by
  obtain ⟨a, ha⟩ := hcost
  refine h.shift (fun v => Function.update v b (v b - x)) (fun v k row hrow => ?_) hS
    ⟨-(a * x), fun v => by rw [ha]; ring⟩ ⟨-(t.objective.coefficientFor b * x), fun v => ?_⟩
  · rw [hchange, Function.update_of_ne (ne_of_get? hrow hb), Row.evaluate_update]
    ring
  · rw [Row.evaluate_update]
    ring

theorem Layered.shift (h : t.Layered) : (t.shift change).Layered where
  row hnew hk hk' := by
    obtain ⟨row, hrow, rfl⟩ := get?_shift hnew
    rw [Row.coefficientFor_addConstant]
    exact h.row hrow hk hk'
  target {target row k'} hrow hk' :=
    h.target ((targetRow_shift t change target).symm.trans hrow) hk'

/-- The rows of dummies stay idle if their constants do not move. -/
theorem DummiesIdle.shift (h : t.DummiesIdle)
    (hchange : ∀ k row, t.rows.get? k = some row → k.dummy = true → (change k row).getD 0 = 0) :
    (t.shift change).DummiesIdle := by
  intro k new hnew hk
  obtain ⟨row, hrow, rfl⟩ := get?_shift hnew
  obtain ⟨hconstant, hdummies⟩ := h k row hrow hk
  refine ⟨?_, hdummies⟩
  rw [hchange k row hrow hk, Row.addConstant, hconstant, add_zero]

/-! ## A target -/

/-- If the first error is basic, moving the target moves the row of this error alone. -/
theorem targetShift_of_plus (hplus : t.isBasic plus = true) (k : Key) (row : Row Rat) :
    (t.targetShift plus minus delta k row).getD 0 = if k = plus then delta else 0 := by
  rw [targetShift, if_pos hplus]
  split <;> rfl

/-- If only the second error is basic, moving the target moves the row of this error alone, the
other way. -/
theorem targetShift_of_minus (hplus : ¬ t.isBasic plus = true) (hminus : t.isBasic minus = true)
    (k : Key) (row : Row Rat) :
    (t.targetShift plus minus delta k row).getD 0 = if k = minus then -delta else 0 := by
  rw [targetShift, if_neg hplus, if_pos hminus]
  split <;> rfl

/-- If neither error is basic, moving the target moves the rows that the first error occurs in. -/
theorem targetShift_of_free (hplus : ¬ t.isBasic plus = true) (hminus : ¬ t.isBasic minus = true)
    (k : Key) (row : Row Rat) :
    (t.targetShift plus minus delta k row).getD 0 = -row.coefficientFor plus * delta := by
  rw [targetShift, if_neg hplus, if_neg hminus]
  dsimp only
  split
  · next hzero => rw [Option.getD_none, beq_iff_eq.mp hzero, neg_zero, zero_mul]
  · rfl

/-- With the constants moved that its target stands in, a tableau represents the solutions for the
new target. -/
theorem Represents.targetShift (h : t.Represents S cost)
    (hmoves : handle.Moves minus delta S S' cost) :
    (t.shift (t.targetShift handle.marker minus delta)).Represents S' cost := by
  by_cases hplus : t.isBasic handle.marker = true
  · exact h.shift_basic hplus (targetShift_of_plus hplus) hmoves.plus hmoves.cost_plus
  by_cases hminus : t.isBasic minus = true
  · refine h.shift_basic hminus (targetShift_of_minus hplus hminus) (fun v => ?_) hmoves.cost_minus
    rw [sub_neg_eq_add]
    exact hmoves.minus v
  · exact h.shift_free (Bool.not_eq_true _ ▸ hplus) (targetShift_of_free hplus hminus) hmoves.plus
      hmoves.cost_plus

/-- Moving a target does not move the rows of idle dummies, since no error occurs in these. -/
theorem DummiesIdle.targetShift_eq_zero (h : t.DummiesIdle) (hplus : plus.kind = .error)
    (hminus : minus.kind = .error) (hrow : t.rows.get? k = some row) (hk : k.dummy = true) :
    (t.targetShift plus minus delta k row).getD 0 = 0 := by
  have hdummy : ∀ e : Key, e.kind = .error → ¬ e.dummy = true := fun e he hdummy => by
    rw [Key.dummy, he] at hdummy
    exact absurd hdummy (by decide)
  have hne : ∀ e : Key, e.kind = .error → k ≠ e := by
    rintro e he rfl
    exact hdummy _ he hk
  by_cases hbasic : t.isBasic plus = true
  · rw [targetShift_of_plus hbasic, if_neg (hne plus hplus)]
  by_cases hbasic' : t.isBasic minus = true
  · rw [targetShift_of_minus hbasic hbasic', if_neg (hne minus hminus)]
  · have hzero : row.coefficientFor plus = 0 :=
      by_contra fun hnot => hdummy _ hplus ((h k row hrow hk).2 _ hnot)
    rw [targetShift_of_free hbasic hbasic', hzero, neg_zero, zero_mul]

theorem DummiesIdle.targetShift (h : t.DummiesIdle) (hplus : plus.kind = .error)
    (hminus : minus.kind = .error) : (t.shift (t.targetShift plus minus delta)).DummiesIdle :=
  h.shift fun _ _ hrow hk => h.targetShift_eq_zero hplus hminus hrow hk

theorem Prepared.targetShift (h : t.Prepared exact quiet S cost)
    (hmoves : handle.Moves minus delta S S' cost) :
    (t.shift (t.targetShift handle.marker minus delta)).Prepared exact quiet S' cost where
  canonical :=
    { represents := h.represents.targetShift hmoves
      layered := h.canonical.layered.shift
      queue := h.canonical.queue.reviseAndQueue _ }
  epsilon := h.epsilon
  queued hexact := (h.queued hexact).reviseAndQueue _
  idle hexact hquiet := (h.idle hexact hquiet).targetShift hmoves.fits.1 hmoves.fits.2.2

/-! ## The whole -/

/-- After the constants have moved, the dual method leads to a sound tableau again. -/
theorem ensures_shift (h : t.Sound exact quiet S cost) (hdeferred : t.deferred = false)
    (hmoves : handle.Moves minus delta S S' cost) :
    Ensures dualOptimize (t.shift (t.targetShift handle.marker minus delta))
      (fun _ t' => t'.Sound exact quiet S' cost ∧ t'.deferred = false)
      fun cause _ => Certified exact quiet S' cost cause := by
  refine ((ensures_dualOptimize (h.prepared.targetShift hmoves)
    fun hexact => h.optimal hexact hdeferred).and
      (keeps_dualOptimize (P := fun t => t.deferred = false) (fun _ _ h => h)
        (fun t _ _ h => (deferred_pivot t _ _).trans h) _ hdeferred)).imp ?_ ?_
  · rintro _ t' ⟨⟨h', hqueue, hminimal⟩, hdeferred'⟩
    exact ⟨⟨h', hqueue, fun hexact _ => hminimal hexact⟩, hdeferred'⟩
  · rintro cause t' ⟨⟨n, rfl⟩ | ⟨rfl, hcertificate⟩, -⟩
    · trivial
    · exact fun hexact _ => (hcertificate hexact).2

/-- A target that a second error makes up for moves with the constants, whatever was put off. -/
theorem ensures_suggest_of_moves {P : Tableau Rat → Prop} {done : Unit → Tableau Rat → Prop}
    {failed : SolverError → Tableau Rat → Prop} (hmoves : handle.Moves minus delta S S' cost)
    (hready : t.deferred = false → P t)
    (hsolve : t.deferred = true → Ensures solve t (fun _ => P) failed)
    (hmove : ∀ t, P t →
      Ensures dualOptimize (t.shift (t.targetShift handle.marker minus delta)) done failed) :
    Ensures (suggest handle delta) t done failed :=
  ensures_suggest_of hready hsolve
    (fun _ _ hnone => absurd (hnone.symm.trans hmoves.fits.2.1) nofun) fun t _ ht hother => by
      cases hother.symm.trans hmoves.fits.2.1
      exact hmove t ht

/-- Moving a target leads to a sound tableau for the new target. -/
theorem ensures_suggest (h : t.Sound exact quiet S cost) (hbounded : exact → Bounded S cost)
    (hmoves : handle.Moves minus delta S S' cost) :
    Ensures (suggest handle delta) t
      (fun _ t' => t'.Sound exact quiet S' cost ∧ t'.deferred = false)
      fun cause _ => Certified exact quiet S' cost cause :=
  ensures_suggest_of_moves hmoves (fun hdeferred => ⟨h, hdeferred⟩)
    (fun _ => (ensures_solve_of_sound h hbounded).imp (fun _ _ => id)
      fun _ _ hfailed => hfailed.1 _ _)
    fun _ h => ensures_shift h.1 h.2 hmoves

end Tableau

end Cassowary
