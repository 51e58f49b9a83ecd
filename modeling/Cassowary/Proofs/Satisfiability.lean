import Cassowary.Proofs.Optimality

/-!
# An accepted constraint can be met, a refused one cannot

As long as nothing is removed, a solver answers a required constraint as it should, also in a batch
that has put its optimisation off. If it takes the constraint in, some values meet all required
constraints with the new one: those that its tableau says. If it finds the constraint unsatisfiable,
no values do: they would settle the symbols at an admissible solution, and there is none. The cost
of the errors is never negative, so it is never found to be unbounded.

## Main definitions

* `Operation.removesNothing` — operations that remove nothing

## Main results

* `State.Tidy.not_exists_feasible` — a certificate against the equations is one against the
  constraints
* `Solver.insert_required` — the answers to a required constraint
-/

namespace Cassowary

open Attempt

namespace State

variable {s : State Rat} {h : Handle} {c : Constraint Rat} {w : Strength Rat} {v : Assignment Rat}
  {exact quiet : Prop} {cost : Assignment Rat → Rat}

/-- With a constraint in the books, an assignment is feasible if it was so before and meets the
constraint, where this is required. -/
theorem Tidy.feasible_register (hs : s.Tidy) (hnew : s.constraints.get? h = none) :
    (s.register h ⟨c, w⟩).Feasible v ↔ s.Feasible v ∧ (w.isRequired = true → c.Holds v) := by
  have hcurrent : (s.register h ⟨c, w⟩).current h ⟨c, w⟩ = c :=
    current_of_forall_ne fun x e he => hs.edit_ne hnew x e he
  rw [feasible_iff_get?, feasible_iff_get?]
  constructor
  · refine fun hv => ⟨fun h' r' hr' hrequired => hv h' r' ?_ hrequired, fun hw => ?_⟩
    · have hne : h' ≠ h := by
        rintro rfl
        rw [hnew] at hr'
        cases hr'
      rw [get?_register, if_neg hne, hr']
    · have hholds := hv h ⟨c, w⟩ (by rw [get?_register, if_pos rfl]) hw
      rwa [hcurrent] at hholds
  · rintro ⟨hv, hc⟩ h' r' hr' hrequired
    rcases get?_register_cases hr' with ⟨rfl, rfl⟩ | hr'
    · rw [hcurrent]
      exact hc hrequired
    · exact hv h' r' hr' hrequired

/-- Constraints whose equations have no admissible solution cannot all be met. -/
theorem Tidy.not_exists_feasible (hs : s.Tidy) (hnone : ¬ ∃ v, s.Equations v ∧ v.Admissible) :
    ¬ ∃ v, s.Feasible v := by
  rintro ⟨v, hv⟩
  exact hnone ⟨s.settle v, hs.equations_settle hv, hs.admissible_settle hv⟩

end State

theorem Strength.isRequired_required : (Strength.required : Strength Rat).isRequired = true :=
  decide_eq_true le_rfl

theorem Strength.required_nonneg : 0 ≤ (Strength.required : Strength Rat).value := by
  decide +kernel

namespace Solver

variable {s : Solver Rat} {config : Config Rat} {c : Constraint Rat}

/-- A sound solver takes a constraint in only if the required ones can be met with it. It finds it
unsatisfiable only if they cannot, and fails otherwise for want of pivots or symbols only. -/
theorem ensures_insert_satisfiable {w : Strength Rat} (hrest : s.AtRest config)
    (hs : s.Sound True True) (hc : c.OverLayout) (hw : 0 ≤ w.value) :
    Ensures (insert c w) s
      (fun _ _ => ∃ v, s.state.Feasible v ∧ (w.isRequired = true → c.Holds v))
      fun cause _ => (∃ n, cause = .iterationLimit n) ∨ (∃ i, cause = .indexSpaceExhausted i) ∨
        cause = .unsatisfiable ∧
          ¬ ∃ v, s.state.Feasible v ∧ (w.isRequired = true → c.Holds v) := by
  refine (ensures_insert_sound hrest hs hc fun _ => hw).imp ?_ ?_
  · rintro h s' ⟨-, hs', ⟨hnew, -⟩, hconstraints, hedits⟩
    have hfeasible := hs'.state.feasible_basicSolution trivial trivial
    have hsame : s'.state.Feasible s'.state.tableau.basicSolution ↔
        (s.state.register h ⟨c, w⟩).Feasible s'.state.tableau.basicSolution :=
      State.feasible_of_eq hconstraints hedits _
    exact ⟨_, (hs.state.tidy.feasible_register hnew).mp (hsame.mp hfeasible)⟩
  · rintro cause s' ⟨-, hindex | ⟨h, ⟨hnew, htidy⟩, hcertified⟩⟩
    · exact .inr (.inl hindex)
    -- A certificate speaks of the symbols, and the books turn it into one about layout variables
    cases cause with
    | iterationLimit n => exact .inl ⟨n, rfl⟩
    | indexSpaceExhausted i => exact .inr (.inl ⟨i, rfl⟩)
    | unsatisfiable =>
      refine .inr (.inr ⟨rfl, fun ⟨v, hv⟩ => ?_⟩)
      refine htidy.not_exists_feasible (hcertified trivial trivial) ⟨v, ?_⟩
      exact (hs.state.tidy.feasible_register hnew).mpr hv
    | unbounded =>
      have hpriced : ∀ h' r', (s.state.register h ⟨c, w⟩).constraints.get? h' = some r' →
          0 ≤ r'.strength.value := by
        intro h' r' hr'
        rcases State.get?_register_cases hr' with ⟨-, rfl⟩ | hr'
        · exact hw
        · exact hs.state.priced trivial h' r' hr'
      exact absurd ⟨0, fun v _ hv => htidy.charge_nonneg hpriced hv⟩ (hcertified trivial)
    | _ => exact hcertified.elim

/-- A required constraint is taken in only if it can be met together with the required ones that are
held, and is refused as unsatisfiable only if it cannot. -/
theorem ensures_insert_required (hrest : s.AtRest config) (hs : s.Sound True True)
    (hc : c.OverLayout) :
    Ensures (insert c .required) s (fun _ _ => ∃ v, s.state.Feasible v ∧ c.Holds v)
      fun cause _ => (cause = .unsatisfiable → ¬ ∃ v, s.state.Feasible v ∧ c.Holds v) ∧
        cause ≠ .unbounded := by
  have hiff : ∀ v, (s.state.Feasible v ∧ ((Strength.required : Strength Rat).isRequired = true →
      c.Holds v)) ↔ s.state.Feasible v ∧ c.Holds v := fun v =>
    and_congr_right fun _ => forall_prop_of_true Strength.isRequired_required
  have h := ensures_insert_satisfiable hrest hs hc Strength.required_nonneg
  simp only [hiff] at h
  refine h.imp (fun _ _ => id) ?_
  rintro _ _ (⟨n, rfl⟩ | ⟨i, rfl⟩ | ⟨rfl, hnot⟩)
  · exact ⟨nofun, nofun⟩
  · exact ⟨nofun, nofun⟩
  · exact ⟨fun _ => hnot, nofun⟩

end Solver

/-- An operation that removes nothing. -/
def Operation.removesNothing : Operation Rat → Bool
  | .insert _ _ | .startEdit _ _ | .suggest _ _ | .openBatch | .closeBatch => true
  | .remove _ | .stopEdit _ | .clear => false

namespace Solver

variable {config : Config Rat} {os : List (Operation Rat)} {c : Constraint Rat}

/-- In exact arithmetic, after any run that removes nothing and leaves the solver with values, in a
batch or not, a required constraint is taken in only if some values meet it together with all
required constraints that are held, it is found unsatisfiable only if none do, and it is never found
unbounded. -/
theorem insert_required (hepsilon : config.epsilon = 0)
    (hos : ∀ o ∈ os, o.Lawful True ∧ o.removesNothing = true)
    (hpoisoned : ((ofConfig config).run os).poisoned = false) (hc : c.OverLayout) :
    (∀ h, (((ofConfig config).run os).step (.insert c .required)).1 = .ok (.inserted h) →
      ∃ v, ((ofConfig config).run os).state.Feasible v ∧ c.Holds v) ∧
    ((((ofConfig config).run os).step (.insert c .required)).1 = .error .unsatisfiable →
      ¬ ∃ v, ((ofConfig config).run os).state.Feasible v ∧ c.Holds v) ∧
    (((ofConfig config).run os).step (.insert c .required)).1 ≠ .error .unbounded := by
  have hsparing : (ofConfig config).Sparing os := by
    refine sparing_of_forall_ne (fun o ho h => ?_) _
    rintro rfl
    exact Bool.false_ne_true (hos _ ho).2
  have hsound : ((ofConfig config).run os).Sound True True :=
    sound_run (fun _ => hepsilon) (fun o ho => (hos o ho).1) (fun _ _ => hsparing) hpoisoned
  have hrest : ((ofConfig config).run os).AtRest config := Reachable.atRest ⟨os, rfl⟩
  have hensures : Ensures (perform (.insert c .required)) ((ofConfig config).run os)
      (fun _ _ => ∃ v, ((ofConfig config).run os).state.Feasible v ∧ c.Holds v)
      fun cause _ => (cause = .unsatisfiable →
        ¬ ∃ v, ((ofConfig config).run os).state.Feasible v ∧ c.Holds v) ∧ cause ≠ .unbounded :=
    ensures_map _ |>.mpr (ensures_insert_required hrest hsound hc)
  unfold step
  rcases hensures.outcome with ⟨answer, hanswer, hmet⟩ | ⟨cause, hcause, hnot, hbounded⟩
  · rw [hanswer]
    exact ⟨fun _ _ => hmet, nofun, nofun⟩
  · rw [hcause]
    refine ⟨nofun, fun h => ?_, fun h => ?_⟩
    · cases h
      exact hnot rfl
    · cases h
      exact hbounded rfl

/-- An edit variable with a target, and a batch that fixes it elsewhere and has not been closed. -/
def suggested : List (Operation Rat) :=
  [.startEdit (.external 0) .strong, .suggest (.external 0) 3, .openBatch,
    .insert ((Variable.external 0).heldAt 5) .required]

theorem insert_required_suggested :
    (((ofConfig ⟨0, true, 100⟩).run suggested).step
        (.insert ((Variable.external 0).heldAt 6) .required)).1 = .error .unsatisfiable ∧
      ¬ ∃ v, ((ofConfig ⟨0, true, 100⟩).run suggested).state.Feasible v ∧
        ((Variable.external 0).heldAt 6).Holds v := by
  have hlawful : ∀ o ∈ suggested, o.Lawful True ∧ o.removesNothing = true := by
    have hstrong : 0 ≤ (Strength.strong : Strength Rat).value := by decide +kernel
    intro o ho
    simp only [suggested, List.mem_cons, List.not_mem_nil, or_false] at ho
    rcases ho with rfl | rfl | rfl | rfl
    · exact ⟨fun _ => hstrong, rfl⟩
    · exact ⟨trivial, rfl⟩
    · exact ⟨trivial, rfl⟩
    · exact ⟨⟨Variable.overLayout_heldAt _ _, fun _ => Strength.required_nonneg⟩, rfl⟩
  have hanswers := @insert_required ⟨0, true, 100⟩ suggested _ rfl hlawful (by decide +kernel)
    ((Variable.external 0).overLayout_heldAt 6)
  have hanswer : (((ofConfig ⟨0, true, 100⟩).run suggested).step
      (.insert ((Variable.external 0).heldAt 6) .required)).1 = .error .unsatisfiable := by
    decide +kernel
  exact ⟨hanswer, hanswers.2.1 hanswer⟩

end Solver

end Cassowary
