import Cassowary.Proofs.Splitting

/-!
# Which of two strengths wins

A variable is held to one value by a single constraint, and to another value by some weaker ones. To
move it away from the first value costs the weight of the single constraint, and saves the weights
of the others at most. So the single constraint wins if it weighs more than the others together, and
it loses if it weighs less. The order in which they come does not matter.

The strong preset weighs a thousand times as much as the medium one, and the medium one only a
hundred times as much as the weak one. So a strong constraint stands up to any number of medium ones
below a thousand, but a medium one does not stand up to more than a hundred weak ones.

## Main definitions

* `Solver.rivals` — a single constraint on a variable, and weaker ones

## Main results

* `Solver.penalty_rivals` — what rivals cost
* `Solver.run_rivals` — the heavier side wins
* `Solver.presets_outweigh` — how many constraints of one preset the next one stands up to
-/

namespace Cassowary

namespace Strength

theorem value_weak : (weak : Strength Rat).value = 1 := rfl

theorem weak_nonneg : 0 ≤ (weak : Strength Rat).value := zero_le_one

theorem isRequired_weak : (weak : Strength Rat).isRequired = false := by decide +kernel

end Strength

/-! ## Holding a variable -/

namespace Variable

variable {x : Variable} {v : Assignment Rat} {a : Rat}

theorem valueOf_of_unrestricted (hx : x.key.unrestricted = true) (v : Assignment Rat) :
    v.valueOf x = v x.key := by
  refine if_neg fun hconstant => ?_
  rw [Key.unrestricted, hconstant] at hx
  cases hx

theorem holds_heldAt (hx : x.key.unrestricted = true) : (x.heldAt a).Holds v ↔ v x.key = a := by
  rw [heldAt, Constraint.holds_ofFormulas_equal (by simp) (by simp)]
  simp [Formula.value, valueOf_of_unrestricted hx]

theorem violation_heldAt (hx : x.key.unrestricted = true) :
    (x.heldAt a).violation v = |v x.key - a| := by
  rw [heldAt, Constraint.violation_ofFormulas_equal (by simp) (by simp)]
  simp [Formula.value, valueOf_of_unrestricted hx]

end Variable

/-- Constraints that may be violated need two symbols each. -/
theorem Shape.demands_of_soft {as : List Shape} (has : ∀ a ∈ as, a.required = false)
    (bs : List Shape) : demands bs as = 2 * as.length := by
  induction as generalizing bs with
  | nil => rfl
  | cons a as ih =>
    have ha := has a List.mem_cons_self
    have hdemand : demand bs a = 2 := by
      rw [demand_of_fixed fun hfixed => ?_, symbols, ha]
      · rfl
      · rw [fixed, ha] at hfixed
        cases hfixed
    rw [demands, hdemand, ih (fun a ha => has a (List.mem_cons_of_mem _ ha)), List.length_cons]
    ring

/-- Where the heavier of two pulls has its way. -/
theorem eq_of_outweighed {W W' a b y : Rat} (hW' : 0 ≤ W') (hlt : W' < W)
    (hleast : W * |y - a| + W' * |y - b| ≤ W' * |a - b|) : y = a := by
  have htriangle : W' * |a - b| ≤ W' * (|y - a| + |y - b|) := by
    refine mul_le_mul_of_nonneg_left ?_ hW'
    rw [abs_sub_comm y a]
    exact abs_sub_le a y b
  have hnear : (W - W') * |y - a| ≤ 0 := by linarith
  have habs : |y - a| ≤ 0 := nonpos_of_mul_nonpos_right hnear (sub_pos.mpr hlt)
  exact sub_eq_zero.mp (abs_nonpos_iff.mp habs)

/-- Where two pulls cost the least together, the heavier one has its way. -/
theorem eq_of_least {W W' a b y : Rat} (hW : 0 ≤ W) (hW' : 0 ≤ W')
    (hleast : ∀ z, W * |y - a| + W' * |y - b| ≤ W * |z - a| + W' * |z - b|) :
    (W' < W → y = a) ∧ (W < W' → y = b) := by
  refine ⟨fun hlt => ?_, fun hlt => ?_⟩
  · have hstay := hleast a
    rw [sub_self, abs_zero, mul_zero, zero_add] at hstay
    exact eq_of_outweighed hW' hlt hstay
  · have hleave := hleast b
    rw [sub_self, abs_zero, mul_zero, add_zero, add_comm, abs_sub_comm b a] at hleave
    exact eq_of_outweighed hW hlt (abs_sub_comm a b ▸ hleave)

/-! ## Rivals -/

namespace Solver

open Operation (insertAll)

variable {config : Config Rat} {x : Variable} {a b : Rat} {w w' : Strength Rat} {k : Nat}
  {cs : List (Constraint Rat × Strength Rat)} {e : Constraint Rat × Strength Rat}
  {v : Assignment Rat}

/-- A constraint that holds a variable to one value, and some that hold it to another value. -/
def rivals (x : Variable) (a b : Rat) (w w' : Strength Rat) (k : Nat) :
    List (Constraint Rat × Strength Rat) :=
  (x.heldAt a, w) :: List.replicate k (x.heldAt b, w')

theorem eq_or_eq_of_mem_rivals (he : e ∈ rivals x a b w w' k) :
    e = (x.heldAt a, w) ∨ e = (x.heldAt b, w') :=
  (List.mem_cons.mp he).imp id List.eq_of_mem_replicate

/-- Rivals cost how far the variable is from the one value and from the other one, in whatever order
they come. -/
theorem penalty_rivals (hcs : cs.Perm (rivals x a b w w' k)) (hx : x.key.unrestricted = true)
    (hw : w.isRequired = false) (hw' : w'.isRequired = false) :
    penalty cs v = w.value * |v x.key - a| + k * w'.value * |v x.key - b| := by
  have hsoft : (rivals x a b w w' k).filter (fun e => !e.2.isRequired) = rivals x a b w w' k := by
    refine List.filter_eq_self.mpr fun e he => ?_
    rcases eq_or_eq_of_mem_rivals he with rfl | rfl
    · exact congrArg Bool.not hw
    · exact congrArg Bool.not hw'
  rw [penalty, ((hcs.filter _).map _).sum_eq, hsoft, rivals, List.map_cons, List.sum_cons,
    List.map_replicate, List.sum_replicate, nsmul_eq_mul, Variable.violation_heldAt hx,
    Variable.violation_heldAt hx, mul_assoc]

/-- Rivals are sums of terms on either side, so the books of the solver that takes them in agree
with each other. -/
theorem balanced_run_rivals (hcs : cs.Perm (rivals x a b w w' k)) :
    ((ofConfig config).run (insertAll cs)).state.Balanced := by
  refine ((orderly_ofConfig config).run fun o ho => ?_).balanced.state
  obtain ⟨e, he, rfl⟩ := List.mem_map.mp ho
  rcases eq_or_eq_of_mem_rivals (hcs.mem_iff.mp he) with rfl | rfl
  · exact ⟨(Formula.var x).linear, .equal, (Formula.number a).linear, rfl⟩
  · exact ⟨(Formula.var x).linear, .equal, (Formula.number b).linear, rfl⟩

/-- Rivals may be violated, and there are symbols for them, so a new solver takes them all in. -/
theorem takes_rivals (hepsilon : config.epsilon = 0) (hw : 0 ≤ w.value ∧ w.isRequired = false)
    (hw' : 0 ≤ w'.value ∧ w'.isRequired = false) (hk : 2 * (k + 1) ≤ Key.maxIndex + 1)
    (hcs : cs.Perm (rivals x a b w w' k))
    (hlimit : ∀ n, .error (.iterationLimit n) ∉ (ofConfig config).answers (insertAll cs)) :
    (∀ answer ∈ (ofConfig config).answers (insertAll cs), ∃ h, answer = .ok (.inserted h)) ∧
      ((ofConfig config).run (insertAll cs)).Working config ∧
      ((ofConfig config).run (insertAll cs)).batch = none ∧
      ((ofConfig config).run (insertAll cs)).state.held = cs := by
  have hmem : ∀ e ∈ cs, e = (x.heldAt a, w) ∨ e = (x.heldAt b, w') := fun e he =>
    eq_or_eq_of_mem_rivals (hcs.mem_iff.mp he)
  have hlawful : ∀ e ∈ cs, e.1.OverLayout ∧ 0 ≤ e.2.value := by
    intro e he
    rcases hmem e he with rfl | rfl
    · exact ⟨x.overLayout_heldAt a, hw.1⟩
    · exact ⟨x.overLayout_heldAt b, hw'.1⟩
  have hsoft : ∀ e ∈ cs, e.2.isRequired = false := by
    intro e he
    rcases hmem e he with rfl | rfl
    · exact hw.2
    · exact hw'.2
  have hroom : (ofConfig config).state.tableau.nextId +
      Shape.demands (ofConfig config).state.shapes (cs.map fun e => e.1.shape e.2) ≤
        Key.maxIndex + 1 := by
    have hlength : (cs.map fun e => e.1.shape e.2).length = k + 1 := by
      rw [List.length_map, hcs.length_eq, rivals, List.length_cons, List.length_replicate]
    rw [Shape.demands_of_soft (List.forall_mem_map.mpr hsoft), hlength]
    exact (Nat.zero_add _).trans_le hk
  rcases (working_ofConfig hepsilon).run_insertAll_of_feasible (v := fun _ => 0) hlawful hroom
    (fun e he hrequired => absurd hrequired (Bool.eq_false_iff.mp (hsoft e he))) with
    ⟨before, n, after, hsplit, -⟩ | ⟨hall, hend, hbatch, hheld⟩
  · exact absurd (hsplit ▸ List.mem_append_right _ List.mem_cons_self) (hlimit n)
  · exact ⟨hall, hend, hbatch, hheld⟩

/-- In exact arithmetic, rivals are all inserted by a new solver, whatever their order, and the
variable has the value that the heavier side holds it to. This is under the condition that the limit
on pivots is not hit. -/
theorem run_rivals (hepsilon : config.epsilon = 0) (hx : x.key.unrestricted = true)
    (hw : 0 ≤ w.value ∧ w.isRequired = false) (hw' : 0 ≤ w'.value ∧ w'.isRequired = false)
    (hk : 2 * (k + 1) ≤ Key.maxIndex + 1) (hcs : cs.Perm (rivals x a b w w' k))
    (hlimit : ∀ n, .error (.iterationLimit n) ∉ (ofConfig config).answers (insertAll cs)) :
    (∀ answer ∈ (ofConfig config).answers (insertAll cs), ∃ h, answer = .ok (.inserted h)) ∧
    ∃ y, ((ofConfig config).run (insertAll cs)).read x = .value y ∧
      (k * w'.value < w.value → y = a) ∧ (w.value < k * w'.value → y = b) := by
  obtain ⟨hall, hend, hbatch, hheld⟩ := takes_rivals hepsilon hw hw' hk hcs hlimit
  have hbalanced : ((ofConfig config).run (insertAll cs)).state.Balanced := balanced_run_rivals hcs
  generalize (ofConfig config).run (insertAll cs) = s at *
  have hread : s.read x = .value (s.assignment x.key) := by
    refine hend.read_eq hbalanced hx (e := (x.heldAt a, w)) (v := fun _ => a) (a := a + 1)
      (hheld ▸ hcs.mem_iff.mpr List.mem_cons_self) ((Variable.holds_heldAt hx).mpr rfl) ?_
    rw [Variable.holds_heldAt hx, Function.update_self]
    linarith
  obtain ⟨-, hoptimal⟩ := hend.sound.optimal trivial trivial hend.poisoned hbatch
  have hleast : ∀ z, w.value * |s.assignment x.key - a| + k * w'.value * |s.assignment x.key - b| ≤
      w.value * |z - a| + k * w'.value * |z - b| := by
    intro z
    have hmoved := hoptimal (fun _ => z) fun e he hrequired => by
      rcases eq_or_eq_of_mem_rivals (hcs.mem_iff.mp (hheld ▸ he)) with rfl | rfl
      · exact absurd hrequired (Bool.eq_false_iff.mp hw.2)
      · exact absurd hrequired (Bool.eq_false_iff.mp hw'.2)
    rw [State.cost_eq_penalty, hheld, penalty_rivals hcs hx hw.2 hw'.2,
      penalty_rivals hcs hx hw.2 hw'.2] at hmoved
    exact hmoved
  exact ⟨hall, s.assignment x.key, hread,
    eq_of_least hw.1 (mul_nonneg (Nat.cast_nonneg k) hw'.1) hleast⟩

/-- In exact arithmetic, a strong constraint on a variable wins over fewer than a thousand medium
ones, and a medium one wins over fewer than a hundred weak ones. More than a hundred weak ones win
over the medium one. The order of insertion does not matter, as long as the limit on pivots is not
hit. -/
theorem presets_outweigh (hepsilon : config.epsilon = 0) (hx : x.key.unrestricted = true) (a b : Rat)
    (hk : k < 1000)
    (hlimit : ∀ n, .error (.iterationLimit n) ∉ (ofConfig config).answers (insertAll cs)) :
    (cs.Perm (rivals x a b .strong .medium k) →
      (∀ answer ∈ (ofConfig config).answers (insertAll cs), ∃ h, answer = .ok (.inserted h)) ∧
        ((ofConfig config).run (insertAll cs)).read x = .value a) ∧
    (cs.Perm (rivals x a b .medium .weak k) →
      (∀ answer ∈ (ofConfig config).answers (insertAll cs), ∃ h, answer = .ok (.inserted h)) ∧
        (k < 100 → ((ofConfig config).run (insertAll cs)).read x = .value a) ∧
        (100 < k → ((ofConfig config).run (insertAll cs)).read x = .value b)) := by
  have hroom : 2 * (k + 1) ≤ Key.maxIndex + 1 := by
    have hindices : Key.maxIndex + 1 = 2 ^ 27 := by decide
    omega
  constructor
  -- What decides is how many times one preset is worth the other
  · intro hcs
    obtain ⟨hall, y, hread, hwins, -⟩ := run_rivals hepsilon hx
      ⟨Strength.strong_nonneg, Strength.isRequired_strong⟩
      ⟨Strength.medium_nonneg, Strength.isRequired_medium⟩ hroom hcs hlimit
    rw [Strength.value_strong, Strength.value_medium] at hwins
    have hlt : (k : Rat) < 1000 := by exact_mod_cast hk
    exact ⟨hall, hread.trans (congrArg _ (hwins (by linarith)))⟩
  · intro hcs
    obtain ⟨hall, y, hread, hwins, hloses⟩ := run_rivals hepsilon hx
      ⟨Strength.medium_nonneg, Strength.isRequired_medium⟩
      ⟨Strength.weak_nonneg, Strength.isRequired_weak⟩ hroom hcs hlimit
    rw [Strength.value_medium, Strength.value_weak, mul_one] at hwins hloses
    refine ⟨hall, fun hlt => hread.trans (congrArg _ (hwins ?_)),
      fun hlt => hread.trans (congrArg _ (hloses ?_))⟩
    · exact_mod_cast hlt
    · exact_mod_cast hlt

/-- A medium constraint between weak ones, and a strong one after medium ones. -/
theorem presets_outweigh_few :
    let held : Rat → Constraint Rat := (Variable.external 0).heldAt
    let cs := [(held 3, .weak), (held 8, .medium), (held 3, .weak)]
    let cs' := [(held 3, .medium), (held 3, .medium), (held 8, .strong)]
    ((ofConfig ⟨0, true, 10⟩).run (insertAll cs)).read (.external 0) = .value 8 ∧
      ((ofConfig ⟨0, true, 10⟩).run (insertAll cs')).read (.external 0) = .value 8 := by
  intro held cs cs'
  have hmedium := @presets_outweigh ⟨0, true, 10⟩ (.external 0) 2 cs rfl rfl 8 3 (by norm_num)
    (notMem_of_all_not_limited (by decide +kernel))
  have hstrong := @presets_outweigh ⟨0, true, 10⟩ (.external 0) 2 cs' rfl rfl 8 3 (by norm_num)
    (notMem_of_all_not_limited (by decide +kernel))
  have hcs : cs.Perm (rivals (.external 0) 8 3 .medium .weak 2) := .swap _ _ _
  have hcs' : cs'.Perm (rivals (.external 0) 8 3 .strong .medium 2) :=
    List.perm_append_singleton (held 8, Strength.strong) (List.replicate 2 (held 3, .medium))
  exact ⟨(hmedium.2 hcs).2.1 (by norm_num), (hstrong.1 hcs').2⟩

/-- A medium constraint is outnumbered by a hundred and one weak ones. -/
theorem presets_outnumbered :
    let cs := rivals (.external 0) 0 1 .medium .weak 101
    (∀ n, .error (.iterationLimit n) ∉ (ofConfig ⟨0, true, 10000⟩).answers (insertAll cs)) ∧
      ((ofConfig ⟨0, true, 10000⟩).run (insertAll cs)).read (.external 0) = .value 1 := by
  intro cs
  have hlimit : ∀ n,
      .error (.iterationLimit n) ∉ (ofConfig ⟨0, true, 10000⟩).answers (insertAll cs) :=
    notMem_of_all_not_limited (by decide +kernel)
  obtain ⟨-, y, hread, -, hloses⟩ := @run_rivals ⟨0, true, 10000⟩ (.external 0) 0 1 .medium .weak 101
    cs rfl rfl ⟨Strength.medium_nonneg, Strength.isRequired_medium⟩
    ⟨Strength.weak_nonneg, Strength.isRequired_weak⟩ (by decide) (.refl _) hlimit
  refine ⟨hlimit, hread.trans (congrArg _ (hloses ?_))⟩
  rw [Strength.value_medium]
  norm_num [Strength.value_weak]

end Solver

end Cassowary
