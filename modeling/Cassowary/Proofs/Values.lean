import Cassowary.Proofs.Batching
import Cassowary.Proofs.Presence

/-!
# The values after a batch

A variable has a value if a constraint that is held mentions it: a variable that none mentions is
not basic, since nothing depends on it. So after a list of insertions the same variables have
values, whether it came in a batch or not. The values are the same where all optimal values are.
Where some are not, nothing settles the choice: the optimum that the tableau ends at depends on the
one that it came from, and in a batch it comes from another one.

## Main definitions

* `State.Indexed` — books that count every mention, without edit variables

## Main results

* `Solver.read_eq` — what a solver tells of a variable
* `Solver.batched_read` — the values after a batch, next to those without one
* `Solver.batched_read_torn` — a variable that nothing settles
-/

namespace Cassowary

open Attempt

/-! ## Mentions -/

namespace State

variable {α : Type} [Scalar α] {references : Table Key Nat} {k k' : Key}

/-- Mentions are counted, and none is forgotten on the way. -/
theorem contains_refer (h : k' = k ∨ references.contains k' = true) :
    (refer references k).contains k' = true := by
  unfold Table.contains refer at *
  by_cases hk : k' = k
  · rw [hk, Table.get?_alter_self, Option.isSome_some]
  · rw [Table.get?_alter_of_ne _ _ hk]
    exact h.resolve_left hk

theorem contains_foldl_refer {ks : List Key} (h : k' ∈ ks ∨ references.contains k' = true) :
    (ks.foldl refer references).contains k' = true := by
  induction ks generalizing references with
  | nil => exact h.resolve_left List.not_mem_nil
  | cons k ks ih =>
    apply ih
    rcases h with hmem | hcontains
    · rcases List.mem_cons.mp hmem with rfl | hmem
      · exact .inr (contains_refer (.inl rfl))
      · exact .inl hmem
    · exact .inr (contains_refer (.inr hcontains))

/-- Every variable that a constraint mentions is counted, and none is edited. -/
structure Indexed (s : State Rat) : Prop where
  references : ∀ h r, s.constraints.get? h = some r → ∀ k ∈ r.constraint.keys,
    s.references.contains k = true
  edits : s.edits = ∅

namespace Indexed

variable {s s' : State Rat}

theorem of_eq (h : s.Indexed) (hconstraints : s'.constraints = s.constraints)
    (hedits : s'.edits = s.edits) (hreferences : s'.references = s.references) : s'.Indexed where
  references := by rw [hconstraints, hreferences]; exact h.references
  edits := hedits.trans h.edits

theorem register (h : s.Indexed) (handle : Handle) (r : Record Rat) :
    (s.register handle r).Indexed where
  references h' r' hr' k hk := by
    apply contains_foldl_refer
    rcases get?_register_cases hr' with ⟨-, rfl⟩ | hr'
    · exact .inl hk
    · exact .inr (h.references h' r' hr' k hk)
  edits := h.edits

end Indexed

end State

namespace State

variable {s : State Rat} {x : Variable} {exact quiet : Prop}

/-- What is basic, of what a user may ask for, is counted. -/
theorem Sound.contains_of_row (hs : s.Sound exact quiet) (h : s.Indexed) {row : Row Rat}
    (hrow : s.tableau.rows.get? x.key = some row) : s.references.contains x.key = true := by
  obtain ⟨handle, r, hr, hk⟩ := hs.mentioned_of_row hrow
  exact h.references handle r hr x.key hk

end State

namespace Solver

open Operation (insertAll batched)

variable {s s' : Solver Rat} {config : Config Rat} {cs : List (Constraint Rat × Strength Rat)}
  {x : Variable}

/-- A list of insertions keeps the count of mentions. -/
theorem indexed_run (config : Config Rat) (cs : List (Constraint Rat × Strength Rat)) :
    ((ofConfig config).run (insertAll cs)).state.Indexed := by
  have hnone : ∀ h r, (∅ : Table Handle (Record Rat)).get? h ≠ some r := fun _ _ => nofun
  have hstart : (ofConfig config).state.Indexed := ⟨fun h r hr => absurd hr (hnone h r), rfl⟩
  refine run_induction (P := fun s : Solver Rat => s.state.Indexed) hstart fun o ho s hs => ?_
  obtain ⟨e, -, rfl⟩ := List.mem_map.mp ho
  refine ensures_map _ |>.mpr ((ensures_insert_state e.1 e.2 s).imp ?_ ?_)
  · rintro h s' ⟨t, rfl⟩
    have hbooks : ({ s.state with tableau := t } : State Rat).Indexed := hs.of_eq rfl rfl rfl
    exact hbooks.register h _
  · rintro cause s' ⟨t, rfl⟩
    unfold recovered
    dsimp only
    split <;> exact hs.of_eq rfl rfl rfl

/-- What a solver with values tells of a variable. -/
theorem read_eq (hs : s.Working config) (hindexed : s.state.Indexed) (x : Variable) :
    s.read x = if s.state.references.contains x.key = true
      then .value (s.state.tableau.basicSolution x.key) else .notFound := by
  unfold read
  rw [hs.poisoned, if_neg Bool.false_ne_true]
  cases hrow : s.state.tableau.rows.get? x.key with
  | some row =>
    rw [hs.sound.state.contains_of_row hindexed hrow, Tableau.basicSolution_of_get? hrow]
    rfl
  | none => rw [Tableau.basicSolution_of_get?_eq_none hrow]

/-- Peers outside a batch know the same variables. -/
theorem Peers.read_eq_notFound_iff (h : Peers config s s') (hindexed : s.state.Indexed)
    (x : Variable) : s'.read x = .notFound ↔ s.read x = .notFound := by
  have hindexed' := hindexed.of_eq h.alike.constraints h.alike.edits h.alike.references
  rw [Solver.read_eq h.left hindexed, Solver.read_eq h.right hindexed', h.alike.references]
  split
  · exact iff_of_false (by simp) (by simp)
  · exact Iff.rfl

/-- Peers outside a batch have the same value where all optimal values are the same. -/
theorem Peers.read_eq (h : Peers config s s') (hbatch : s.batch = none) (hbatch' : s'.batch = none)
    (hindexed : s.state.Indexed)
    (hsettled : ∀ v w, s.state.Optimal v → s.state.Optimal w → v x.key = w x.key) :
    s'.read x = s.read x := by
  have hindexed' := hindexed.of_eq h.alike.constraints h.alike.edits h.alike.references
  have hvalue : s'.state.tableau.basicSolution x.key = s.state.tableau.basicSolution x.key := by
    rcases x.mentionable with hx | hx
    · have hoptimal' := h.right.sound.optimal trivial trivial h.right.poisoned hbatch'
      rw [h.alike.optimal_eq] at hoptimal'
      rw [← assignment_eq h.right.poisoned hx, ← assignment_eq h.left.poisoned hx]
      exact hsettled _ _ hoptimal' (h.left.sound.optimal trivial trivial h.left.poisoned hbatch)
    · rw [Tableau.basicSolution_of_get?_eq_none
          (Tableau.isBasic_eq_false_iff.mp (h.right.sound.state.isBasic_of_constant hx)),
        Tableau.basicSolution_of_get?_eq_none
          (Tableau.isBasic_eq_false_iff.mp (h.left.sound.state.isBasic_of_constant hx))]
  rw [Solver.read_eq h.left hindexed, Solver.read_eq h.right hindexed', h.alike.references, hvalue]

/-- In exact arithmetic, after a list of insertions into a new solver, in a batch or not, a variable
that has the same value in all optimal assignments is told alike. The same variables are found in
any case, and if the solver is not poisoned, which it is on both ways or on neither, both ways lead
to optimal assignments. All of this is under the condition that the limit on pivots is not hit. -/
theorem batched_read (hepsilon : config.epsilon = 0)
    (hcs : ∀ e ∈ cs, e.1.OverLayout ∧ 0 ≤ e.2.value)
    (hlimit : ∀ n, .error (.iterationLimit n) ∉ (ofConfig config).answers (insertAll cs))
    (hlimit' : ∀ n,
      .error (.iterationLimit n) ∉ (ofConfig config).answers (batched (insertAll cs))) :
    (∀ x : Variable, (∀ v w, ((ofConfig config).run (insertAll cs)).state.Optimal v →
        ((ofConfig config).run (insertAll cs)).state.Optimal w → v x.key = w x.key) →
      ((ofConfig config).run (batched (insertAll cs))).read x =
        ((ofConfig config).run (insertAll cs)).read x) ∧
    (∀ x, ((ofConfig config).run (batched (insertAll cs))).read x = .notFound ↔
      ((ofConfig config).run (insertAll cs)).read x = .notFound) ∧
    ((ofConfig config).run (batched (insertAll cs))).poisoned =
      ((ofConfig config).run (insertAll cs)).poisoned ∧
    (((ofConfig config).run (insertAll cs)).poisoned = false →
      ((ofConfig config).run (insertAll cs)).state.Optimal
        ((ofConfig config).run (insertAll cs)).assignment ∧
      ((ofConfig config).run (insertAll cs)).state.Optimal
        ((ofConfig config).run (batched (insertAll cs))).assignment) := by
  have hworking : (ofConfig config).Working config :=
    Assembled.working ⟨[], fun _ ho => absurd ho List.not_mem_nil, rfl⟩ hepsilon rfl
  rcases hworking.peers_batched rfl hcs hlimit hlimit' with
    ⟨hpoisoned, hpoisoned'⟩ | ⟨hpeers, -, hnone, hnone'⟩
  · have hread : ∀ x, ((ofConfig config).run (batched (insertAll cs))).read x =
        ((ofConfig config).run (insertAll cs)).read x := fun x => by
      rw [read, read, if_pos hpoisoned, if_pos hpoisoned']
    refine ⟨fun x _ => hread x, fun x => by rw [hread], by rw [hpoisoned, hpoisoned'], fun hno => ?_⟩
    rw [hpoisoned] at hno
    cases hno
  -- Both ways lead to optimal values of the same constraints
  · have hindexed := indexed_run config cs
    have hoptimal := hpeers.left.sound.optimal trivial trivial hpeers.left.poisoned hnone
    have hoptimal' := hpeers.right.sound.optimal trivial trivial hpeers.right.poisoned hnone'
    rw [hpeers.alike.optimal_eq] at hoptimal'
    exact ⟨fun x => hpeers.read_eq hnone hnone' hindexed, hpeers.read_eq_notFound_iff hindexed,
      by rw [hpeers.left.poisoned, hpeers.right.poisoned], fun _ => ⟨hoptimal, hoptimal'⟩⟩

/-- What the crowded batch comes to: the constraint that contradicts the first one is left out. -/
theorem held_crowded :
    ((ofConfig ⟨0, true, 100⟩).run (insertAll crowded)).state.held =
      [(⟨[⟨Variable.key (.external 0), 1⟩], -4, .lessOrEqual⟩, ⟨100000000⟩),
        (⟨[⟨Variable.key (.external 0), 1⟩], -6, .equal⟩, ⟨1⟩),
        (⟨[⟨Variable.key (.external 1), 1⟩, ⟨Variable.key (.external 0), -1⟩], 0, .equal⟩,
          ⟨100000000⟩),
        (⟨[⟨Variable.key (.external 1), -1⟩], 3, .lessOrEqual⟩, ⟨100⟩)] := by
  decide +kernel

/-- The weak target is above the bound, so the best that one can do is to stay at the bound. -/
theorem optimal_crowded {v : Assignment Rat}
    (hv : ((ofConfig ⟨0, true, 100⟩).run (insertAll crowded)).state.Optimal v) :
    v (Variable.key (.external 1)) = 4 := by
  obtain ⟨hfeasible, hleast⟩ := hv
  have hcost := hleast fun _ => 4
  have hrequired : (⟨100000000⟩ : Strength Rat).isRequired = true := by decide +kernel
  have hmedium : (⟨100⟩ : Strength Rat).isRequired = false := by decide +kernel
  have hweak : (⟨1⟩ : Strength Rat).isRequired = false := by decide +kernel
  simp [State.Feasible, State.cost, held_crowded, hrequired, hmedium, hweak, Constraint.Holds,
    Constraint.value, Constraint.violation, Scalar.magnitude, Scalar.atLeast] at hfeasible hcost
  split_ifs at hcost <;> linarith

theorem batched_read_crowded :
    ((ofConfig ⟨0, true, 100⟩).run (insertAll crowded)).read (.external 1) = .value 4 ∧
      ((ofConfig ⟨0, true, 100⟩).run (batched (insertAll crowded))).read (.external 1) =
        ((ofConfig ⟨0, true, 100⟩).run (insertAll crowded)).read (.external 1) := by
  refine ⟨by decide +kernel, ?_⟩
  have hagree := @batched_read ⟨0, true, 100⟩ crowded rfl overLayout_crowded
    (notMem_of_all_not_limited (by decide +kernel)) (notMem_of_all_not_limited (by decide +kernel))
  exact hagree.1 _ fun v w hv hw => (optimal_crowded hv).trans (optimal_crowded hw).symm

/-- A variable with a lower bound, and two weaker targets that pull at it from either side. -/
def torn : List (Constraint Rat × Strength Rat) :=
  [(.ofFormulas (.var (.external 0)) .greaterOrEqual (.number 1), .medium),
    ((Variable.external 0).heldAt 2, .weak), ((Variable.external 0).heldAt (-1), .weak)]

/-- One by one the variable gets to the one end of its optimal range, and in a batch to the
other. -/
theorem batched_read_torn :
    ((ofConfig ⟨0, true, 100⟩).answers (insertAll torn)).all (·.isOk) = true ∧
      ((ofConfig ⟨0, true, 100⟩).answers (batched (insertAll torn))).all (·.isOk) = true ∧
      ((ofConfig ⟨0, true, 100⟩).run (insertAll torn)).read (.external 0) = .value 2 ∧
      ((ofConfig ⟨0, true, 100⟩).run (batched (insertAll torn))).read (.external 0) = .value 1 := by
  refine ⟨?_, ?_, ?_, ?_⟩ <;> decide +kernel

end Solver

end Cassowary
