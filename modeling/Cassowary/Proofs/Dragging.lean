import Cassowary.Proofs.Splitting

/-!
# A column that is dragged

When the columns have been arranged, the first width becomes an edit variable, and then its target
is moved. What holds it to the target is stronger than what keeps the other widths equal to it, but
there are many of the others. As long as there are fewer than a thousand, each unit that the first
width is away from its target costs more than what can be gained by it from the others.

The widths of the others are not settled by this. But with the first width given, nothing costs less
than to make the others equal to each other. So the costs of any arrangement have a bound that
depends on the first width alone, and this bound is reached.

## Main results

* `Solver.Working.step_startEdit` — a variable becomes an edit variable, unless the limit is hit
* `Columns.Fits.width_zero_eq` — the first width is as near to its target as it can be
* `Columns.solve_dragged` — the answer to an arrangement that is dragged
-/

namespace Cassowary

open Finset (range)
open Attempt

/-! ## Edit variables -/

namespace State

variable {s : State Rat} {x : Variable} {h : Handle} {r : Record Rat} {target : Rat}

/-- What is held with a new edit variable, with another constraint in the place of the one behind
it. -/
theorem Tidy.heldWith_hold_register (htidy : ((s.register h r).hold x h target).Tidy)
    (hnew : s.constraints.get? h = none) (hx : s.edits.get? x = none) (c : Constraint Rat) :
    ((s.register h r).hold x h target).heldWith h c = s.held ++ [(c, r.strength)] := by
  have hentries : ((s.register h r).hold x h target).constraints.entries =
      s.constraints.entries ++ [(h, r)] :=
    Table.entries_insert_of_notMem (Table.get?_eq_none_iff.mp hnew)
  rw [heldWith, hentries, List.map_append, List.map_singleton, if_pos rfl, held]
  congr 1
  refine List.map_congr_left fun e he => ?_
  have hne : e.1 ≠ h := by
    rintro rfl
    cases hnew.symm.trans (Table.get?_eq_some_iff.mpr he)
  rw [if_neg hne, htidy.current_congr (s := s)]
  intro x' e' hhandle
  rw [get?_hold]
  by_cases hx' : x' = x
  · rw [if_pos hx', hx', hx]
    refine iff_of_false (Option.some_ne_none _).symm fun heq => hne ?_
    rw [← hhandle, ← Option.some.inj heq]
  · rw [if_neg hx']
    rfl

end State

namespace Solver

variable {s : Solver Rat} {config : Config Rat} {x : Variable} {c : Constraint Rat}
  {w : Strength Rat}

/-- A constraint that may be violated is inserted if there are symbols enough, unless the limit on
pivots is hit. -/
theorem Working.ensures_insert_soft (hs : s.Working config) (hc : c.OverLayout) (hw : 0 ≤ w.value)
    (hsoft : w.isRequired = false) (hroom : s.state.tableau.nextId + 2 ≤ Key.maxIndex + 1) :
    Ensures (insert c w) s
      (fun h s' => s.state.constraints.get? h = none ∧ ∃ t, s' = { s with
        state := State.register { s.state with tableau := t } h ⟨c, w⟩
        insertions := s.insertions + 1 })
      fun cause _ => ∃ n, cause = .iterationLimit n := by
  have hstate := hs.sound.state
  have hnot : ¬ w.isRequired = true := Bool.eq_false_iff.mp hsoft
  have hdemand : Shape.demand s.state.shapes (c.shape w) = 2 := by
    rw [Shape.demand_of_fixed fun hfixed => absurd (Bool.and_eq_true_iff.mp hfixed).1 hnot]
    exact if_neg hnot
  obtain ⟨h, hreserve⟩ : ∃ h, c.reserve w s.state.Equations s.state.tableau.nextId =
      .ok (h, s.state.tableau.nextId + 2) := by
    rcases hstate.tidy.reserve_cases hc w s.state.tableau.nextId with ⟨-, h⟩ | ⟨hlt, -⟩
    · exact hdemand ▸ h
    · exact absurd hroom (not_le.mpr (hdemand ▸ hlt))
  have hverdict := State.verdict_of_exists hreserve
    ⟨_, hstate.feasible_basicSolution trivial trivial, fun hrequired => absurd hrequired hnot⟩
  refine (((ensures_insert_state c w s).and
    (ensures_insert_sound hs.rest hs.sound hc fun _ => hw)).and
    (ensures_insert_verdict hs.rest hs.sound hc hw)).imp ?_ ?_
  · rintro h s' ⟨⟨hs', -, -, ⟨hnew, -⟩, -⟩, -⟩
    exact ⟨hnew, hs'⟩
  · rintro cause s' ⟨-, hlimit | hcause⟩
    · exact hlimit
    · cases hcause.symm.trans hverdict

/-- A variable becomes an edit variable, if it is not one, unless the limit on pivots is hit. What
holds it comes after everything else that is held. -/
theorem Working.step_startEdit (hs : s.Working config) (hedit : s.state.edits.get? x = none)
    (hw : 0 ≤ w.value) (hsoft : w.isRequired = false)
    (hroom : s.state.tableau.nextId + 2 ≤ Key.maxIndex + 1) :
    ((s.step (.startEdit x w)).1 = .ok .done ∧ (s.step (.startEdit x w)).2.Working config ∧
      (s.step (.startEdit x w)).2.batch = s.batch ∧
      ∃ e, (s.step (.startEdit x w)).2.state.edits.get? x = some e ∧
        ∀ c, (s.step (.startEdit x w)).2.state.heldWith e.handle c = s.state.held ++ [(c, w)]) ∨
    ∃ n, (s.step (.startEdit x w)).1 = .error (.iterationLimit n) := by
  have hnone : ¬ s.isEdit x = true := Option.not_isSome_iff_eq_none.mpr hedit
  have hstart : Ensures (startEdit x w) s
      (fun _ s' => s'.batch = s.batch ∧ ∃ h t, s.state.constraints.get? h = none ∧
        s'.state = (State.register { s.state with tableau := t } h
          ⟨x.heldAt ((s.read x).getD 0), w⟩).hold x h ((s.read x).getD 0))
      fun cause _ => ∃ n, cause = .iterationLimit n := by
    refine ensures_startEdit_of (fun hx => absurd hx hnone)
      (fun hrequired => absurd (hrequired.symm.trans hsoft) nofun) fun _ _ =>
        (hs.ensures_insert_soft (x.overLayout_heldAt _) hw hsoft hroom).imp ?_ fun _ _ => id
    rintro h s' ⟨hnew, t, rfl⟩
    exact ⟨rfl, h, t, hnew, rfl⟩
  have hperform : Ensures (perform (.startEdit x w)) s
      (fun answer s' => answer = .done ∧ (s'.poisoned = s.poisoned ∧ s'.Sound True True) ∧
        s'.batch = s.batch ∧ ∃ h t, s.state.constraints.get? h = none ∧
        s'.state = (State.register { s.state with tableau := t } h
          ⟨x.heldAt ((s.read x).getD 0), w⟩).hold x h ((s.read x).getD 0))
      fun cause _ => ∃ n, cause = .iterationLimit n :=
    ensures_bind _ |>.mpr (((ensures_startEdit_sound hs.rest hs.sound x fun _ => hw).and
      hstart).imp (fun _ _ h => ⟨rfl, h⟩) fun _ _ h => h.2)
  have hrest := (keeps_perform (.startEdit x w)).outcome hs.rest
  rcases hperform.outcome with
    ⟨_, hanswer, rfl, ⟨hpoisoned, hsound⟩, hbatch, h, t, hnew, hstate⟩ | ⟨_, hcause, n, rfl⟩
  · refine .inl ⟨hanswer, ⟨hrest, hsound, hpoisoned.trans hs.poisoned⟩, hbatch,
      ⟨h, (s.read x).getD 0⟩, ?_, ?_⟩
    · rw [show (s.step (.startEdit x w)).2.state = _ from hstate, State.get?_hold, if_pos rfl]
    · rw [show (s.step (.startEdit x w)).2.state = _ from hstate]
      exact State.Tidy.heldWith_hold_register (s := { s.state with tableau := t })
        (hstate ▸ hsound.state.tidy) hnew hedit
  · exact .inr ⟨n, hcause⟩

end Solver

/-! ## The first width -/

namespace Columns

open Solver (symbolCount)

variable {c : Columns Rat} {config : Config Rat} {s : Solver Rat} {v : Assignment Rat} {t x : Rat}

/-- How wide the first column can be at most. -/
def reach (c : Columns Rat) : Rat := c.room - (c.count - 1) * c.least

theorem violation_heldAt : ((width 0).heldAt t).violation v = |v.width 0 - t| :=
  Constraint.violation_ofFormulas_equal (by simp) (by simp)

/-- On the way to a target, the nearest value within bounds comes first. -/
theorem dist_eq_of_clamp {a b : Rat} (ha : a ≤ x) (hb : x ≤ b) :
    |x - t| = |max a (min t b) - t| + |x - max a (min t b)| := by
  rcases le_total t b with htb | htb
  · rw [min_eq_left htb]
    rcases le_total a t with hat | hat
    · rw [max_eq_right hat, sub_self, abs_zero, zero_add]
    · rw [max_eq_left hat, abs_of_nonneg (by linarith), abs_of_nonneg (by linarith),
        abs_of_nonneg (by linarith)]
      ring
  · rw [min_eq_right htb, max_eq_right (ha.trans hb), abs_of_nonpos (by linarith),
      abs_of_nonpos (by linarith), abs_of_nonpos (by linarith)]
    ring

/-- The first width costs at least what the others would cost if they were equal to each other. -/
theorem Fits.le_penalty (h : c.Fits c.count v) (hn : c.count ≠ 0) :
    100 * |c.room - c.count * v.width 0| ≤ penalty c.requirements v := by
  have hsum : ∑ i ∈ range c.count, (v.width i - v.width 0) = c.room - c.count * v.width 0 := by
    rw [Finset.sum_sub_distrib, h.sum_width hn, Finset.sum_const, Finset.card_range, nsmul_eq_mul]
  rw [requirements_eq hn, penalty_upTo, ← Finset.mul_sum, ← hsum]
  exact mul_le_mul_of_nonneg_left (Finset.abs_sum_le_sum_abs _ _) (by norm_num)

/-- Every first width between the least one and the reach is that of columns that fit, at a cost of
a hundred times the distance of the room from what the columns take at this width. -/
theorem exists_fits_width_zero (hn : 2 ≤ c.count) (hmax : c.count ≤ 2 ^ 26) (hleast : c.least ≤ x)
    (hreach : x ≤ c.reach) : ∃ v, c.Fits c.count v ∧ v.width 0 = x ∧
      penalty c.requirements v = 100 * |c.room - c.count * x| := by
  obtain ⟨m, hm⟩ := Nat.exists_eq_add_one_of_ne_zero (n := c.count) (by omega)
  have hpos : (0 : Rat) < m := Nat.cast_pos.mpr (by omega)
  have hcount : (c.count : Rat) = m + 1 := by exact_mod_cast hm
  set W : Nat → Rat := fun i => if i = 0 then x else (c.room - x) / m with hW
  have hsplit : ∀ f : Rat → Rat, ∑ i ∈ range c.count, f (W i) = m * f ((c.room - x) / m) + f x := by
    intro f
    rw [hm, Finset.sum_range_succ', Finset.sum_congr rfl fun i _ =>
      congrArg f (if_neg (Nat.succ_ne_zero i)), Finset.sum_const, Finset.card_range, nsmul_eq_mul]
    exact congrArg _ (congrArg f (if_pos rfl))
  have hzero : (c.lay W).width 0 = x := (width_lay (by norm_num)).trans (if_pos rfl)
  refine ⟨c.lay W, fits_lay (by omega) hmax le_rfl ?_ fun i _ => ?_, hzero, ?_⟩
  · rw [hsplit fun y => y, mul_div_cancel₀ _ hpos.ne']
    ring
  · rw [hW]
    dsimp only
    split
    · exact hleast
    · rw [reach, hcount] at hreach
      rw [le_div_iff₀ hpos]
      linarith
  · have hwidths : ∀ i ∈ range c.count, 100 * |(c.lay W).width i - (c.lay W).width 0| =
        100 * |W i - x| := fun i hi => by
      rw [hzero, width_lay ((Finset.mem_range.mp hi).trans_le hmax)]
    rw [requirements_eq (by omega), penalty_upTo, Finset.sum_congr rfl hwidths,
      hsplit fun y => 100 * |y - x|, sub_self, abs_zero, mul_zero, add_zero, mul_left_comm]
    congr 1
    rw [← abs_of_pos hpos, ← abs_mul, abs_of_pos hpos, mul_sub, mul_div_cancel₀ _ hpos.ne', hcount]
    congr 1
    ring

/-- The first width leaves the least widths to the others. -/
theorem Fits.width_zero_le (h : c.Fits c.count v) (hn : c.count ≠ 0) : v.width 0 ≤ c.reach := by
  obtain ⟨m, hm⟩ := Nat.exists_eq_add_one_of_ne_zero hn
  have hcount : (c.count : Rat) = m + 1 := by exact_mod_cast hm
  have hsum := h.sum_width hn
  rw [hm, Finset.sum_range_succ'] at hsum
  have hothers := Finset.card_nsmul_le_sum (range m) (fun i => v.width (i + 1)) c.least fun i hi =>
    h.bound (i + 1) (by have := Finset.mem_range.mp hi; omega)
  rw [Finset.card_range, nsmul_eq_mul] at hothers
  rw [reach, hcount]
  linarith

/-- If nothing costs less, the first of fewer than a thousand widths is as near to its target as it
can be. -/
theorem Fits.width_zero_eq (h : c.Fits c.count v) (hn : 2 ≤ c.count) (hmax : c.count ≤ 999)
    (hroom : c.count * c.least + (c.count - 1) * c.gap ≤ c.total)
    (hleast : ∀ v', c.Fits c.count v' →
      penalty c.requirements v + 100000 * |v.width 0 - t| ≤
        penalty c.requirements v' + 100000 * |v'.width 0 - t|) :
    v.width 0 = max c.least (min t c.reach) := by
  have hn' : c.count ≠ 0 := by omega
  set p := max c.least (min t c.reach) with hp
  have hreach : c.least ≤ c.reach := by
    rw [reach, room]
    linarith
  obtain ⟨v', hfits', hwidth', hcost'⟩ := exists_fits_width_zero hn (by omega)
    (le_max_left c.least (min t c.reach)) (max_le hreach (min_le_right _ _))
  have hdist := dist_eq_of_clamp (t := t) (h.bound 0 (by omega)) (h.width_zero_le hn')
  have hcost := h.le_penalty hn'
  have hmoved := hleast v' hfits'
  rw [hwidth', hcost', ← hp] at hmoved
  rw [← hp] at hdist
  have hcount : (c.count : Rat) ≤ 999 := by exact_mod_cast hmax
  have htriangle : |c.room - c.count * p| ≤
      |c.room - c.count * v.width 0| + c.count * |v.width 0 - p| := by
    have hmoved : c.room - c.count * p =
        c.room - c.count * v.width 0 + c.count * (v.width 0 - p) := by ring
    rw [hmoved]
    refine (abs_add_le _ _).trans_eq ?_
    rw [abs_mul, Nat.abs_cast]
  -- What the others gain is less than what the first one loses
  have hgain : c.count * |v.width 0 - p| ≤ 999 * |v.width 0 - p| :=
    mul_le_mul_of_nonneg_right hcount (abs_nonneg _)
  have hnear : |v.width 0 - p| ≤ 0 := by linarith
  exact sub_eq_zero.mp (abs_nonpos_iff.mp hnear)

/-! ## The two steps -/

/-- Dragging the first width to a target adds one constraint, which holds the width at the target,
unless the limit on pivots is hit. -/
theorem Arranged.dragged_cases (hs : c.Arranged config s) (hn : c.count ≠ 0)
    (hmax : c.count < 2 ^ 25) (t : Rat) :
    (∃ k, dragged s t = .error (.iterationLimit k)) ∨
    ∃ s', dragged s t = .ok s' ∧ s'.Working config ∧ s'.Orderly config ∧ s'.batch = none ∧
      s'.state.held = c.requirements ++ [((width 0).heldAt t, .strong)] := by
  have hroom : s.state.tableau.nextId + 2 ≤ Key.maxIndex + 1 := by
    obtain ⟨m, hm⟩ := Nat.exists_eq_add_one_of_ne_zero hn
    have hindices : Key.maxIndex + 1 = 2 ^ 27 := by decide
    have hcount : symbolCount c.requirements = c.count + 2 + 3 * m := by
      rw [requirements_eq hn, ← symbolCount_upTo hn (by omega), ← hm]
    rw [hs.nextId, hcount, hindices]
    omega
  have hedits : s.state.edits.get? (width 0) = none := by
    rw [hs.edits]
    rfl
  rcases hs.working.step_startEdit hedits Strength.strong_nonneg Strength.isRequired_strong hroom with
    ⟨hstarted, hediting, hbatch, e, he, hwith⟩ | ⟨n, hlimit⟩
  · rcases hediting.step_suggest he t with ⟨hmoved, hmoving, hbatch', t', hstate⟩ | ⟨n, hlimit⟩
    · have horderly := (hs.orderly.step (o := .startEdit (width 0) .strong) trivial).step
        (o := .suggest (width 0) t) trivial
      refine .inr ⟨_, ?_, hmoving, horderly, hbatch'.trans (hbatch.trans hs.batch), ?_⟩
      · rw [dragged, hstarted]
        dsimp only
        rw [hmoved]
        rfl
      · rw [show State.held _ = _ from congrArg State.held hstate]
        refine (hediting.sound.state.tidy.held_retarget he t).trans ?_
        rw [hwith, hs.held]
    · refine .inl ⟨n, ?_⟩
      rw [dragged, hstarted]
      dsimp only
      rw [hlimit]
      rfl
  · refine .inl ⟨n, ?_⟩
    rw [dragged, hlimit]
    rfl

/-- In exact arithmetic, fewer than a thousand columns that have room enough are arranged when the
first one is dragged: the required constraints are met, and the first column is as wide as it has
been dragged to, or as near to that as the least widths of all columns allow. This is so unless the
limit on pivots is hit. -/
theorem solve_dragged (hepsilon : config.epsilon = 0) (hn : 2 ≤ c.count) (hmax : c.count ≤ 999)
    (hroom : c.count * c.least + (c.count - 1) * c.gap ≤ c.total) (hdrag : c.drag = some t) :
    (∃ k, c.solve config = .error (.iterationLimit k)) ∨
    ∃ s, c.solve config = .ok s ∧
      (∀ e ∈ c.requirements, e.2.isRequired = true → e.1.Holds s.assignment) ∧
      s.read (width 0) = .value
        (max c.least (min t (c.total - (c.count - 1) * c.gap - (c.count - 1) * c.least))) := by
  have hn' : c.count ≠ 0 := by omega
  rcases solve_cases hepsilon hn' (by omega) with
    ⟨s, hs, hsolve, -⟩ | hlimit | ⟨hmany, -⟩ | ⟨-, hnot, -⟩
  · rw [hdrag] at hsolve
    rw [hsolve]
    refine (hs.dragged_cases hn' (by omega) t).imp id ?_
    rintro ⟨s', hdragged, hworking, horderly, hbatch, hheld⟩
    have hoptimal := hworking.sound.optimal trivial trivial hworking.poisoned hbatch
    have hfeasible : ∀ v, s'.state.Feasible v ↔ c.Fits c.count v := by
      intro v
      rw [State.Feasible, hheld, List.forall_mem_append, List.forall_mem_singleton,
        requirements_eq hn', holds_upTo_iff]
      exact and_iff_left fun hrequired =>
        absurd (Strength.isRequired_strong.symm.trans hrequired) Bool.false_ne_true
    have hcost : ∀ v, s'.state.cost v = penalty c.requirements v + 100000 * |v.width 0 - t| := by
      intro v
      rw [State.cost_eq_penalty, hheld, penalty_append, ← violation_heldAt]
      simp [penalty, Strength.isRequired_strong, Strength.value_strong]
    obtain ⟨hmet, hleast⟩ := hoptimal
    have hfits := (hfeasible _).mp hmet
    refine ⟨s', hdragged, fun e he => hmet e (hheld ▸ List.mem_append_left _ he), ?_⟩
    have hread := (read_eq (i := 0) hworking horderly.balanced.state (fun e he => by
      rw [hheld, requirements_eq hn']
      exact List.mem_append_left _ he) (by omega) (by omega)).2
    rw [hread, hfits.width_zero_eq hn hmax hroom fun v' hv' => ?_]
    · rfl
    · rw [← hcost, ← hcost]
      exact hleast v' ((hfeasible v').mpr hv')
  · exact .inl hlimit
  · omega
  · exact absurd hroom hnot

/-- Three columns, of which the first one is dragged farther than there is room for it. -/
theorem solve_dragged_three : ∃ s, (⟨3, 80, 1, 10, some 70⟩ : Columns Rat).solve ⟨0, true, 100⟩ = .ok s ∧
    s.read (width 0) = .value 58 := by
  have hsolved : ((⟨3, 80, 1, 10, some 70⟩ : Columns Rat).solve ⟨0, true, 100⟩).toBool = true := by
    decide +kernel
  rcases @solve_dragged ⟨3, 80, 1, 10, some 70⟩ ⟨0, true, 100⟩ 70 rfl (by decide) (by decide)
    (by norm_num) rfl with ⟨k, hlimit⟩ | ⟨s, hs, -, hread⟩
  · rw [hlimit] at hsolved
    cases hsolved
  · refine ⟨s, hs, hread.trans (congrArg Reading.value ?_)⟩
    norm_num

end Columns

end Cassowary
