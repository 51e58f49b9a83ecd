import Cassowary.Proofs.Loops
import Cassowary.Proofs.Oversight
import Cassowary.Proofs.Soundness

/-!
# What a deferred optimisation leaves behind

In a batch an operation may leave the objective as it comes out and note that the optimisation was
put off. The note is to be trusted: between operations no row is queued and none is violated, noted
or not, and without the note nothing would improve the objective. It is cleared where a solver has
caught up only, and taken back with everything else where an operation is undone.

The dual method relies on that. An operation starts it after the primal method has run, or from the
objective of a tableau without a note, in which only constants have moved. Both are minimal, and a
pivot on a smallest ratio keeps the objective minimal, so every dual pivot that an operation makes
starts from a minimal objective and leads to one.

## Main definitions

* `Tableau.Poised` — what the dual method asks of a tableau
* `Solver.Repairs` — the tableaux from which an operation starts the dual method

## Main results

* `Tableau.Poised.pivot`, `Tableau.Poised.afterPivots` — one dual pivot, and any number of them
* `Solver.Repairs.poised` — every start of the dual method is poised
* `Solver.run_deferral` — what the note promises after any run
-/

namespace Cassowary

namespace Tableau

open Attempt

variable {t t' u : Tableau Rat} {entering leaving : Key} {n : Nat}

/-- Basic variables occur on the left only, signs are taken as they are, and nothing would improve
the objective. -/
structure Poised (t : Tableau Rat) : Prop where
  separated : t.Separated
  epsilon : t.epsilon = 0
  minimal : t.objective.Minimal

namespace Poised

/-- A dual pivot takes a smallest ratio, so it keeps the objective minimal. -/
theorem pivot (h : t.Poised) (hrule : dualRule t = (.pivot entering leaving, t')) :
    (t'.pivot entering leaving).Poised := by
  obtain ⟨row, rest, rfl, hnext, hentering⟩ := dualRule_pivot hrule
  obtain ⟨_, hterm, -⟩ := dualEntering?_eq_some hentering
  have hrow := (nextViolated_eq_some hnext).1
  have hrest : ({ t with infeasible := rest } : Tableau Rat).Separated :=
    h.separated.of_eq rfl rfl (.inl rfl) le_rfl
  exact ⟨hrest.pivot ((h.separated.row hrow).known_of_mem_terms hterm),
    (epsilon_pivot _ _ _).trans h.epsilon,
    minimal_dual_pivot hrest h.epsilon h.minimal hrow hentering⟩

theorem afterPivots (h : t.Poised) (hpivots : afterPivots dualRule n t = some u) : u.Poised :=
  of_afterPivots (fun h hrule => h.pivot hrule) h hpivots

/-- Moving constants leaves a poised tableau poised. -/
theorem shift (h : t.Poised) (change : Key → Row Rat → Option Rat) : (t.shift change).Poised :=
  ⟨h.separated.shift change, h.epsilon, h.minimal⟩

theorem ensures_dualOptimize (h : t.Poised) :
    Ensures dualOptimize t (fun _ u => u.Poised) fun _ _ => True := by
  refine ensures_iterate_afterPivots.imp ?_ fun _ _ _ => trivial
  rintro _ _ ⟨n, -, t₁, hpivots, hrule⟩
  obtain ⟨rfl, -⟩ := dualRule_finished hrule
  obtain ⟨hseparated, hepsilon, hminimal⟩ := h.afterPivots hpivots
  exact ⟨hseparated.of_eq rfl rfl (.inl rfl) le_rfl, hepsilon, hminimal⟩

end Poised

/-- The primal method prepares for the dual method. -/
theorem ensures_optimize_poised (h : t.Apart n) (hepsilon : t.epsilon = 0) :
    Ensures (optimize .objective) t (fun _ u => u.Poised) fun _ _ => True := by
  refine ((keeps_optimize_apart .objective t h).and
    (((stable_epsilon 0).optimize .objective t hepsilon).and (ensures_optimize_entering t))).imp
      ?_ fun _ _ _ => trivial
  rintro _ u ⟨h', hepsilon', hentering⟩
  exact ⟨h'.separated, hepsilon', minimal_of_entering?_eq_none hepsilon' hentering⟩

theorem ensures_solve_poised (h : t.Apart n) (hepsilon : t.epsilon = 0) :
    Ensures solve t (fun _ u => u.Poised) fun _ _ => True := by
  refine ensures_bind _ |>.mpr
    ((ensures_optimize_poised h hepsilon).imp (fun _ t₁ h₁ => ?_) fun _ _ => id)
  refine ensures_bind _ |>.mpr (h₁.ensures_dualOptimize.imp (fun _ t₂ h₂ => ?_) fun _ _ => id)
  exact ⟨h₂.separated.of_eq rfl rfl (.inl rfl) le_rfl, h₂.epsilon, h₂.minimal⟩

/-- Solves if an optimisation has been put off. -/
def catchUp : Attempt (Tableau Rat) Unit := do
  let t ← get
  if t.deferred then solve

/-- A tableau that has caught up is ready for a target to move, if its note on what was put off can
be trusted. -/
theorem ensures_catchUp_poised (h : t.Apart n) (hepsilon : t.epsilon = 0)
    (hminimal : t.deferred = false → t.objective.Minimal) :
    Ensures catchUp t (fun _ u => u.Poised) fun _ _ => True := by
  unfold catchUp
  rw [ensures_bind, ensures_get]
  split
  · exact ensures_solve_poised h hepsilon
  · next hdeferred => exact ⟨h.separated, hepsilon, hminimal (Bool.eq_false_iff.mpr hdeferred)⟩

end Tableau

theorem Operation.Lawful.overLayout {exact : Prop} {o : Operation Rat} (ho : o.Lawful exact) :
    o.OverLayout := by
  cases o with
  | insert c w => exact ho.1
  | _ => trivial

namespace Solver

open Attempt Tableau

variable {config : Config Rat} {s : Solver Rat} {o : Operation Rat} {u : Tableau Rat}

/-- The tableaux from which an operation starts the dual method: those in which the primal method
has ended, before the equation of a constraint is installed or at the end of the operation, and
those in which a target has moved. -/
inductive Repairs (s : Solver Rat) (o : Operation Rat) : Tableau Rat → Prop where
  /-- An insertion catches up, as its equation asks for that. -/
  | prepared {c : Constraint Rat} {w : Strength Rat} {row : Row Rat} {h : Handle} {t u : Tableau Rat}
      (hadded : o.added s = some (c, w)) (hrow : createRow c w s.opening = .ok (row, h) t)
      (hneeds : t.deferred && (!t.infeasible.isEmpty || t.needsRepair row (row.subject? h)))
      (hoptimize : optimize .objective t = .ok () u) : Repairs s o u
  /-- An insertion is finished. -/
  | inserted {c : Constraint Rat} {w : Strength Rat} {row : Row Rat} {h : Handle}
      {t t' u : Tableau Rat} (hadded : o.added s = some (c, w))
      (hrow : createRow c w s.opening = .ok (row, h) t) (hinsert : insertRow row h t = .ok () t')
      (hnow : (s.isBatching && t'.infeasible.isEmpty) = false)
      (hoptimize : optimize .objective t' = .ok () u) : Repairs s o u
  /-- A removal is finished. -/
  | removed {h : Handle} {r : Record Rat} {t u : Tableau Rat} (hremoves : o.removes s = some h)
      (hr : s.state.constraints.get? h = some r)
      (ht : t = ((h.markers.filter (·.kind = .error)).foldl (·.dropPrice · r.strength)
        s.opening).dropMarker h.marker)
      (hnow : (s.isBatching && t.infeasible.isEmpty) = false)
      (hoptimize : optimize .objective t = .ok () u) : Repairs s o u
  /-- A target is to be moved, and the tableau catches up before that. -/
  | behind {h : Handle} {u : Tableau Rat} (hmoves : o.moves s = some h)
      (hdeferred : s.opening.deferred = true)
      (hoptimize : optimize .objective s.opening = .ok () u) : Repairs s o u
  /-- A target has moved, by whatever amount. -/
  | moved {h : Handle} {minus : Key} {delta : Rat} {t : Tableau Rat} (hmoves : o.moves s = some h)
      (hother : h.other = some minus)
      (hcaught : catchUp s.opening = .ok () t) :
      Repairs s o (t.shift (t.targetShift h.marker minus delta))
  /-- A batch is closed. -/
  | closed {u : Tableau Rat} (hclose : o = .closeBatch)
      (hoptimize : optimize .objective s.state.tableau = .ok () u) : Repairs s o u

/-- Whatever an operation starts the dual method from is poised, if the solver is right not to note
that an optimisation was put off. -/
theorem Repairs.poised (hu : s.Repairs o u) (hrest : s.AtRest config) (hepsilon : config.epsilon = 0)
    (hs : s.Apart) (ho : o.OverLayout)
    (hminimal : s.state.tableau.deferred = false → s.state.tableau.objective.Minimal) :
    u.Poised := by
  have hopening := hs.opening
  have hzero : s.opening.epsilon = 0 := hrest.epsilon_opening.trans hepsilon
  have hrecovers : s.opening.RecoversTo s.opening := by
    rcases s.opening_cases with heq | heq <;> rw [heq]
    · exact hrest.tableau.recoversTo
    · exact hrest.tableau.begin_recoversTo
  cases hu with
  | prepared hadded hrow _ hoptimize =>
    obtain ⟨ht, -, -⟩ := (ensures_createRow_apart hopening (ho.added hadded) _).of_eq_ok hrow
    have hzero' := ((stable_epsilon 0).createRow _ _ _ hzero).of_eq_ok hrow
    exact (ensures_optimize_poised ht hzero').of_eq_ok hoptimize
  | inserted hadded hrow hinsert _ hoptimize =>
    obtain ⟨ht, hover, hmarkers⟩ :=
      (ensures_createRow_apart hopening (ho.added hadded) _).of_eq_ok hrow
    have ht' := (ensures_insertRow_apart ht hover hmarkers).of_eq_ok hinsert
    have hcreated := ((stable_recoversTo s.opening).createRow _ _ _ hrecovers).of_eq_ok hrow
    have hinserted := (keeps_insertRow _ _ _ hcreated).of_eq_ok hinsert
    exact (ensures_optimize_poised ht' (hinserted.1.epsilon.trans hzero)).of_eq_ok hoptimize
  | @removed h r t u _ hr ht _ hoptimize =>
    have hknown : ∀ k ∈ h.markers, s.opening.Known k := fun k hk hinternal =>
      s.nextId_opening.symm ▸ hs.state.known h r hr k hk hinternal
    obtain ⟨hprices, hid⟩ := hopening.dropPrices r.strength (h.markers.filter (·.kind = .error))
      fun k hk => hknown k (List.mem_filter.mp hk).1
    have hapart : t.Apart s.state.tableau.nextId :=
      ht ▸ hprices.dropMarker ((hknown _ List.mem_cons_self).mono hid.ge)
    have hzero' : t.epsilon = 0 :=
      ht ▸ (stable_epsilon 0).dropMarker _ ((stable_epsilon 0).dropPrices _ _ hzero)
    exact (ensures_optimize_poised hapart hzero').of_eq_ok hoptimize
  | behind _ _ hoptimize => exact (ensures_optimize_poised hopening hzero).of_eq_ok hoptimize
  | moved _ _ hcaught =>
    refine ((ensures_catchUp_poised hopening hzero fun hdeferred => ?_).of_eq_ok hcaught).shift _
    rcases s.opening_cases with heq | heq <;> rw [heq] at hdeferred ⊢ <;> exact hminimal hdeferred
  | closed _ hoptimize =>
    exact (ensures_optimize_poised hs.state.tableau (hrest.tableau.epsilon.trans hepsilon)).of_eq_ok
      hoptimize

/-- In exact arithmetic, with strengths that are not negative, after any run that has not left the
solver poisoned: no row is queued and no symbol is negative, in a batch or not; nothing would
improve the objective unless an optimisation has been put off, which happens in a batch only. And
whatever is asked of the solver next, every objective that it makes dual pivots from is minimal, and
so is the one after each of the pivots. -/
theorem run_deferral (hepsilon : config.epsilon = 0) {os : List (Operation Rat)}
    (hos : ∀ o ∈ os, o.Lawful True) (hs : (ofConfig config).run os = s)
    (hpoisoned : s.poisoned = false) :
    s.state.tableau.infeasible = [] ∧ s.state.tableau.Feasible ∧
    (s.state.tableau.deferred = false → s.state.tableau.objective.Minimal) ∧
    (s.batch = none → s.state.tableau.deferred = false) ∧
    ∀ o : Operation Rat, o.Lawful True → ∀ t, s.Repairs o t → t.objective.Minimal ∧
      ∀ n u, afterPivots dualRule n t = some u → u.objective.Minimal := by
  subst hs
  have hsound : ((ofConfig config).run os).Sound True False :=
    sound_run (fun _ => hepsilon) hos (fun _ => False.elim) hpoisoned
  have htableau := hsound.state.tableau
  refine ⟨htableau.queue, htableau.feasible trivial, htableau.optimal trivial, hsound.settled,
    fun o ho t ht => ?_⟩
  have hpoised : t.Poised := ht.poised (Reachable.atRest ⟨os, rfl⟩) hepsilon
    (run_apart fun o ho => (hos o ho).overLayout) ho.overLayout (htableau.optimal trivial)
  exact ⟨hpoised.minimal, fun n u hu => (hpoised.afterPivots hu).minimal⟩

/-- An edit variable with an upper bound, and a batch in which what draws it to a value is
removed. -/
def relieved : List (Operation Rat) :=
  [.startEdit (.external 0) .weak,
    .insert (.ofFormulas (.var (.external 0)) .lessOrEqual (.number 10)) .required,
    .insert ((Variable.external 0).heldAt 5) .medium, .openBatch,
    .remove ⟨.ofIndex .error false 3, some (.ofIndex .error false 4)⟩]

theorem lawful_relieved : ∀ o ∈ relieved, o.Lawful True := by
  intro o ho
  simp only [relieved, List.mem_cons, List.not_mem_nil, or_false] at ho
  rcases ho with rfl | rfl | rfl | rfl | rfl
  · exact fun _ => by decide +kernel
  · exact ⟨Constraint.overLayout_reduce _ _ _, fun _ => by decide +kernel⟩
  · exact ⟨Variable.overLayout_heldAt _ _, fun _ => by decide +kernel⟩
  · trivial
  · trivial

/-- The batch has put off an optimisation, without a row that would be violated. When the variable
is moved beyond its bound, the solver catches up first, and a dual pivot lets the variable give way:
the objective is minimal before and after the pivot. -/
theorem run_deferral_relieved :
    ((ofConfig ⟨0, true, 100⟩).run relieved).state.tableau.deferred = true ∧
    ((ofConfig ⟨0, true, 100⟩).run relieved).state.tableau.infeasible = [] ∧
    ((ofConfig ⟨0, true, 100⟩).run relieved).state.tableau.Feasible ∧
    ∃ t u, ((ofConfig ⟨0, true, 100⟩).run relieved).Repairs (.suggest (.external 0) 20) t ∧
      afterPivots dualRule 1 t = some u ∧ t.objective.Minimal ∧ u.objective.Minimal := by
  obtain ⟨hqueue, hfeasible, -, -, hrepairs⟩ := @run_deferral ⟨0, true, 100⟩ _ rfl
    relieved lawful_relieved rfl (by decide +kernel)
  have hcaught : (catchUp.outcome ((ofConfig ⟨0, true, 100⟩).run relieved).opening).1 = .ok () := by
    decide +kernel
  have hmoved := @Repairs.moved ((ofConfig ⟨0, true, 100⟩).run relieved) (.suggest (.external 0) 20)
    ⟨.ofIndex .error false 0, some (.ofIndex .error false 1)⟩ _ 20 _ (by decide +kernel) rfl
    (ensures_self.of_ok hcaught)
  have hpivot : ∀ t, ((ofConfig ⟨0, true, 100⟩).run relieved).Repairs (.suggest (.external 0) 20) t →
      (afterPivots dualRule 1 t).isSome = true →
      ∃ u, afterPivots dualRule 1 t = some u ∧ t.objective.Minimal ∧ u.objective.Minimal := by
    intro t ht hsome
    obtain ⟨u, hu⟩ := Option.isSome_iff_exists.mp hsome
    obtain ⟨hminimal, hafter⟩ := hrepairs (.suggest (.external 0) 20) trivial t ht
    exact ⟨u, hu, hminimal, hafter 1 u hu⟩
  obtain ⟨u, hu⟩ := hpivot _ hmoved (by decide +kernel)
  exact ⟨by decide +kernel, hqueue, hfeasible, _, u, hmoved, hu⟩

end Solver

end Cassowary
