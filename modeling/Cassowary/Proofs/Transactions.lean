import Mathlib.Data.List.Induction
import Cassowary.Proofs.Atomicity

/-!
# Batches and poisoning

A solver undoes failures at two levels. An operation on the tableau that fails is undone by itself,
and a batch that fails at its end is undone as a whole, whatever has succeeded, failed or been
undone since its start. A solver that undoes nothing is poisoned by the first failure in the tableau
and stays so until it is cleared. Errors that are found before the tableau is touched do not poison
it.

Nothing is asked of the arithmetic, the constraints or the configuration.

## Main definitions

* `Attempt.fails`, `Solver.failsInTableau` — whether an operation fails in the tableau
* `Operation.leavesOpen` — whether a batch is open after an operation
* `Solver.Passes` — what an operation on one constraint or edit variable does to the batch
* `Solver.Backed` — a batch that is open can be undone if failures are undone at all

## Main results

* `Solver.passes_step` — operations on one constraint or edit variable
* `Solver.isBatching_step` — only the operations on batches open or close one
* `Solver.state_closeBatch` — a batch that fails goes back to its start
* `Solver.poisoned_run_iff` — what poisons a solver that undoes nothing
* `Solver.run_transactions` — all of it, for every run
-/

namespace Cassowary

/-- Whether an attempt fails where it starts in a state. -/
def Attempt.fails {σ β : Type} (action : Attempt σ β) (s : σ) : Bool :=
  match action s with
  | .ok _ _ => false
  | .error _ _ => true

/-- Whether a batch is open after an operation, from whether one was before. -/
def Operation.leavesOpen {α : Type} : Operation α → Bool → Bool
  | .openBatch, _ => true
  | .closeBatch, _ | .clear, _ => false
  | _, isOpen => isOpen

/-! ## Solving -/

namespace Tableau

open Attempt

variable {α : Type} [Scalar α]

theorem ensures_optimize_cause (target : Target) (t : Tableau α) :
    Ensures (optimize target) t (fun _ _ => True) fun cause _ => cause ≠ .noBatch := by
  refine ensures_iterate (P := fun _ => True) (fun _ _ => trivial) (fun _ hrule => ?_)
    (fun _ _ => trivial) (fun _ _ => nofun) t.maxIterations trivial
  rw [(primalRule_impossible hrule).2.1]
  nofun

theorem ensures_dualOptimize_cause (t : Tableau α) :
    Ensures dualOptimize t (fun _ _ => True) fun cause _ => cause ≠ .noBatch := by
  refine ensures_iterate (P := fun _ => True) (fun _ _ => trivial) (fun _ hrule => ?_)
    (fun _ _ => trivial) (fun _ _ => nofun) t.maxIterations trivial
  rw [(dualRule_impossible hrule).1]
  nofun

/-- Solving never fails for want of an open batch. -/
theorem ensures_solve_cause (t : Tableau α) :
    Ensures solve t (fun _ _ => True) fun cause _ => cause ≠ .noBatch :=
  ensures_bind _ |>.mpr ((ensures_optimize_cause _ t).imp (fun _ t' _ => ensures_bind _ |>.mpr
    ((ensures_dualOptimize_cause t').imp (fun _ _ _ => trivial) fun _ _ => id)) fun _ _ => id)

end Tableau

namespace Solver

open Attempt

variable {α : Type}

/-- What an operation on one constraint or edit variable does, whether it fails in the tableau or
not: the batch stays as it is, and a failure that is not undone poisons the solver. -/
structure Passes (s : Solver α) (failed : Bool) (s' : Solver α) : Prop where
  config : s'.config = s.config
  batch : s'.batch = s.batch
  poisoned : s'.poisoned = (s.poisoned || (failed && !s.config.rollbackOnFailure))

theorem Passes.refl (s : Solver α) : s.Passes false s := ⟨rfl, rfl, (Bool.or_false _).symm⟩

theorem ensures_guarded_passes {β : Type} (operation : Attempt (Tableau α) β) (s : Solver α) :
    Ensures (guarded operation) s (fun _ s' => s.Passes (operation.fails s.opening) s')
      fun _ s' => s.Passes (operation.fails s.opening) s' := by
  unfold Ensures Attempt.fails
  rw [guarded_eq]
  cases operation s.opening with
  | ok b t => exact ⟨rfl, rfl, (Bool.or_false _).symm⟩
  | error cause t =>
    dsimp only
    unfold recovered
    dsimp only
    cases hrollback : s.config.rollbackOnFailure with
    | true => exact ⟨rfl, rfl, by simp [hrollback]⟩
    | false => exact ⟨rfl, rfl, by simp [hrollback]⟩

variable [Scalar α] {config : Config α} {s s' : Solver α} {b : Batch α}

/-! ## Operations on one constraint or edit variable -/

/-- Whether an operation fails in the tableau. Errors that are found before the tableau is touched
are no such failures. -/
def failsInTableau (s : Solver α) : Operation α → Bool
  | .insert c w => (Tableau.addConstraint c w s.isBatching).fails s.opening
  | .remove h => (s.state.constraints.get? h).any fun r =>
      (Tableau.removeConstraint h r.strength s.isBatching).fails s.opening
  | .startEdit x w => !s.isEdit x && !w.isRequired &&
      (Tableau.addConstraint (x.heldAt ((s.read x).getD 0)) w s.isBatching).fails s.opening
  | .stopEdit x => (s.state.edits.get? x).any fun e =>
      (s.state.constraints.get? e.handle).any fun r =>
        (Tableau.removeConstraint e.handle r.strength s.isBatching).fails s.opening
  | .suggest x target => (s.state.edits.get? x).any fun e =>
      (Tableau.suggest e.handle (target - e.target)).fails s.opening
  | .closeBatch => s.isBatching && Tableau.solve.fails s.state.tableau
  | .openBatch | .clear => false

theorem ensures_insert_passes (c : Constraint α) (w : Strength α) (s : Solver α) :
    Ensures (insert c w) s (fun _ s' => s.Passes (s.failsInTableau (.insert c w)) s')
      fun _ s' => s.Passes (s.failsInTableau (.insert c w)) s' := by
  exact ensures_insert_of ((ensures_guarded_passes _ s).imp
    (fun _ _ h => ⟨h.config, h.batch, h.poisoned⟩) fun _ _ => id)

theorem ensures_remove_passes (h : Handle) (s : Solver α) :
    Ensures (remove h) s (fun _ s' => s.Passes (s.failsInTableau (.remove h)) s')
      fun _ _ => False := by
  have hfails : s.failsInTableau (.remove h) = (s.state.constraints.get? h).any fun r =>
      (Tableau.removeConstraint h r.strength s.isBatching).fails s.opening := rfl
  rw [hfails]
  refine ensures_remove_of (fun hnone => ?_) fun r hr => ?_
  · rw [hnone]
    exact .refl s
  · rw [hr]
    exact (ensures_guarded_passes _ s).imp (fun _ _ h => ⟨h.config, h.batch, h.poisoned⟩)
      fun _ _ => id

/-- An operation on one constraint or edit variable leaves the batch as it is, and poisons the
solver exactly if it fails in the tableau and is not undone. -/
theorem passes_step {o : Operation α} (ho : o.single = true) :
    s.Passes (s.failsInTableau o) (s.step o).2 := by
  have hensures : Ensures (perform o) s (fun _ s' => s.Passes (s.failsInTableau o) s')
      fun _ s' => s.Passes (s.failsInTableau o) s' := by
    cases o with
    | insert c w => exact ensures_map _ |>.mpr (ensures_insert_passes c w s)
    | remove h =>
      exact ensures_map _ |>.mpr ((ensures_remove_passes h s).imp (fun _ _ => id)
        fun _ _ => False.elim)
    | startEdit x w =>
      simp only [failsInTableau]
      refine ensures_bind _ |>.mpr (ensures_startEdit_of (fun hedit => ?_) (fun hrequired => ?_)
        fun hedit hsoft => ?_)
      · rw [hedit]
        exact .refl s
      · rw [hrequired, Bool.not_true, Bool.and_false]
        exact .refl s
      · rw [hedit, hsoft]
        exact (ensures_insert_passes _ w s).imp
          (fun _ _ h => ⟨h.config, h.batch, h.poisoned⟩) fun _ _ => id
    | stopEdit x =>
      simp only [failsInTableau]
      refine ensures_bind _ |>.mpr (ensures_stopEdit_of (fun hnone => ?_) fun e he => ?_)
      · rw [hnone]
        exact .refl s
      · rw [he]
        refine (ensures_remove_passes e.handle s).imp (fun gone s' h => ?_) fun _ _ => False.elim
        cases gone with
        | false => exact h
        | true => exact ⟨h.config, h.batch, h.poisoned⟩
    | suggest x target =>
      simp only [failsInTableau]
      refine ensures_bind _ |>.mpr (ensures_suggest_of (fun hnone => ?_) fun e he => ?_)
      · rw [hnone]
        exact .refl s
      · rw [he]
        exact (ensures_guarded_passes _ s).imp
          (fun _ _ h => ⟨h.config, h.batch, h.poisoned⟩) fun _ _ => id
    | openBatch | closeBatch | clear => simp [Operation.single] at ho
  exact hensures.after

/-! ## Operations on batches -/

/-- A batch is not opened while one is open. -/
theorem step_openBatch_of_open (hopen : s.isBatching = true) :
    s.step .openBatch = (.error .batchInProgress, s) := by
  refine Ensures.outcome_eq_error (ensures_bind _ |>.mpr (ensures_openBatch_of (fun _ => ⟨rfl, rfl⟩)
    fun hnone => ?_))
  rw [isBatching, hnone] at hopen
  cases hopen

/-- A batch is opened where none is open, and keeps the state if failures are undone. -/
theorem step_openBatch_of_closed (hclosed : s.isBatching = false) :
    s.step .openBatch = (.ok .done,
      { s with batch := some ⟨if s.config.rollbackOnFailure then some s.state else none⟩ }) := by
  refine Ensures.outcome_eq_ok (ensures_bind _ |>.mpr ?_)
  unfold openBatch
  rw [ensures_bind, ensures_get, if_neg (Bool.eq_false_iff.mp hclosed)]
  exact ⟨rfl, rfl⟩

omit [Scalar α] in
theorem restored_eq (s : Solver α) (b : Batch α) :
    (s.restored b).config = s.config ∧ (s.restored b).batch = s.batch ∧
      (s.restored b).poisoned = (s.poisoned || b.snapshot.isNone) := by
  unfold restored
  cases b.snapshot with
  | some state => exact ⟨rfl, rfl, (Bool.or_false _).symm⟩
  | none => exact ⟨rfl, rfl, (Bool.or_true _).symm⟩

/-- A batch is not closed unless one is open. -/
theorem step_closeBatch_of_none (hnone : s.batch = none) :
    s.step .closeBatch = (.error .noBatch, s) :=
  Ensures.outcome_eq_error (ensures_bind _ |>.mpr (ensures_closeBatch_of (fun _ => ⟨rfl, rfl⟩)
    fun b hb => absurd (hnone.symm.trans hb) (Option.some_ne_none b).symm))

/-- An open batch is closed whether solving succeeds or fails. -/
theorem step_closeBatch_of_some (hb : s.batch = some b) :
    s.step .closeBatch = match Tableau.solve s.state.tableau with
      | .ok _ t => (.ok .done, { s with batch := none, state := { s.state with tableau := t } })
      | .error cause t => (.error cause,
          restored { s with batch := none, state := { s.state with tableau := t } } b) := by
  simp only [step, outcome, perform, closeBatch, bind, EStateM.bind, hb]
  cases Tableau.solve s.state.tableau <;> rfl

/-- Only the operations on batches, and clearing, open or close a batch. -/
theorem isBatching_step (s : Solver α) (o : Operation α) :
    (s.step o).2.isBatching = o.leavesOpen s.isBatching := by
  cases o with
  | openBatch =>
    cases hopen : s.isBatching with
    | true => rw [step_openBatch_of_open hopen, hopen]; rfl
    | false => rw [step_openBatch_of_closed hopen]; rfl
  | closeBatch =>
    cases hb : s.batch with
    | none =>
      rw [step_closeBatch_of_none hb, isBatching, hb]
      rfl
    | some b =>
      rw [step_closeBatch_of_some hb]
      cases Tableau.solve s.state.tableau with
      | ok _ t => rfl
      | error cause t => exact congrArg Option.isSome (restored_eq _ b).2.1
  | clear => rfl
  | _ => exact congrArg Option.isSome (passes_step rfl).batch

theorem step_openBatch_eq_ok_iff (s : Solver α) :
    (s.step .openBatch).1 = .ok .done ↔ s.isBatching = false := by
  cases hopen : s.isBatching with
  | true =>
    rw [step_openBatch_of_open hopen]
    exact iff_of_false nofun nofun
  | false =>
    rw [step_openBatch_of_closed hopen]
    exact iff_of_true rfl rfl

theorem step_closeBatch_eq_noBatch_iff (s : Solver α) :
    (s.step .closeBatch).1 = .error .noBatch ↔ s.isBatching = false := by
  cases hb : s.batch with
  | none =>
    rw [step_closeBatch_of_none hb, isBatching, hb]
    exact iff_of_true rfl rfl
  | some b =>
    have hcause := Tableau.ensures_solve_cause s.state.tableau
    unfold Ensures at hcause
    rw [step_closeBatch_of_some hb, isBatching, hb]
    cases hsolve : Tableau.solve s.state.tableau with
    | ok _ t => exact iff_of_false nofun nofun
    | error cause t =>
      rw [hsolve] at hcause
      exact iff_of_false (fun heq => hcause (Except.error.inj heq)) nofun

/-- A batch that is open stays the same until it is closed or dropped. -/
theorem batch_step_of_open {o : Operation α} (hb : s.batch = some b)
    (ho : o.leavesOpen true = true) : (s.step o).2.batch = some b := by
  cases o with
  | openBatch =>
    have hopen : s.isBatching = true := by rw [isBatching, hb, Option.isSome_some]
    rw [step_openBatch_of_open hopen, hb]
  | closeBatch | clear => cases ho
  | _ => exact (passes_step rfl).batch.trans hb

theorem batch_run_of_open {os : List (Operation α)} (hb : s.batch = some b)
    (hos : ∀ o ∈ os, o.leavesOpen true = true) : (s.run os).batch = some b := by
  induction os generalizing s with
  | nil => exact hb
  | cons o os ih =>
    obtain ⟨ho, hos⟩ := List.forall_mem_cons.mp hos
    exact ih (batch_step_of_open hb ho) hos

/-- A batch that fails at its end goes back to its snapshot. -/
theorem state_closeBatch {state : State α} (hb : s.batch = some ⟨some state⟩)
    (hrefused : refused (s.step .closeBatch).1 = true) : (s.step .closeBatch).2.state = state := by
  rw [step_closeBatch_of_some hb] at hrefused ⊢
  cases hsolve : Tableau.solve s.state.tableau with
  | ok _ t =>
    rw [hsolve] at hrefused
    cases hrefused
  | error cause t => rfl

/-! ## Poisoning -/

/-- The settings are those of the configuration, and an open batch can be undone if failures are
undone at all. -/
structure Backed (config : Config α) (s : Solver α) : Prop where
  config_eq : s.config = config
  snapshot : ∀ b, s.batch = some b → b.snapshot.isSome = config.rollbackOnFailure

omit [Scalar α] in
theorem Backed.of_none (hconfig : s.config = config) (hnone : s.batch = none) :
    s.Backed config :=
  ⟨hconfig, fun b hb => by rw [hnone] at hb; cases hb⟩

omit [Scalar α] in
theorem Backed.passes (hs : s.Backed config) {failed : Bool} (h : s.Passes failed s') :
    s'.Backed config ∧
      s'.poisoned = (s.poisoned || (failed && !config.rollbackOnFailure)) :=
  ⟨⟨h.config.trans hs.config_eq, fun b hb => hs.snapshot b (h.batch ▸ hb)⟩,
    hs.config_eq ▸ h.poisoned⟩

theorem Backed.step_openBatch (hs : s.Backed config) :
    (s.step .openBatch).2.Backed config ∧ (s.step .openBatch).2.poisoned = s.poisoned := by
  cases hopen : s.isBatching with
  | true =>
    rw [step_openBatch_of_open hopen]
    exact ⟨hs, rfl⟩
  | false =>
    rw [step_openBatch_of_closed hopen]
    refine ⟨⟨hs.config_eq, fun b hb => ?_⟩, rfl⟩
    cases hb
    dsimp only
    rw [hs.config_eq]
    cases config.rollbackOnFailure <;> rfl

theorem Backed.step_closeBatch (hs : s.Backed config) :
    (s.step .closeBatch).2.Backed config ∧ (s.step .closeBatch).2.poisoned =
      (s.poisoned || (s.failsInTableau .closeBatch && !config.rollbackOnFailure)) := by
  unfold failsInTableau fails isBatching
  cases hb : s.batch with
  | none =>
    rw [step_closeBatch_of_none hb]
    exact ⟨hs, (Bool.or_false _).symm⟩
  | some b =>
    rw [step_closeBatch_of_some hb]
    cases Tableau.solve s.state.tableau with
    | ok _ t => exact ⟨.of_none hs.config_eq rfl, (Bool.or_false _).symm⟩
    | error cause t =>
      obtain ⟨hconfig, hbatch, hpoisoned⟩ := restored_eq
        { s with batch := none, state := { s.state with tableau := t } } b
      refine ⟨.of_none (hconfig.trans hs.config_eq) hbatch, hpoisoned.trans ?_⟩
      rw [← hs.snapshot b hb]
      cases b.snapshot <;> rfl

/-- Where failures are undone, whatever fails leaves the solver as good as it was. Where they are
not, what fails in the tableau poisons it, and only clearing makes it good. -/
theorem Backed.step_of_ne_clear (hs : s.Backed config) {o : Operation α} (ho : o ≠ .clear) :
    (s.step o).2.Backed config ∧ (s.step o).2.poisoned =
      (s.poisoned || (s.failsInTableau o && !config.rollbackOnFailure)) := by
  cases o with
  | openBatch =>
    rw [failsInTableau, Bool.false_and, Bool.or_false]
    exact hs.step_openBatch
  | closeBatch => exact hs.step_closeBatch
  | clear => exact absurd rfl ho
  | _ => exact hs.passes (passes_step rfl)

theorem Backed.step (hs : s.Backed config) (o : Operation α) : (s.step o).2.Backed config := by
  by_cases ho : o = .clear
  · rw [ho]
    exact .of_none hs.config_eq rfl
  · exact (hs.step_of_ne_clear ho).1

theorem backed_run (config : Config α) (os : List (Operation α)) :
    ((ofConfig config).run os).Backed config := by
  induction os using List.reverseRecOn with
  | nil => exact .of_none rfl rfl
  | append_singleton os o ih =>
    rw [run_append]
    exact ih.step o

omit [Scalar α] in
/-- Something has happened since a run was last cleared: it is the last thing that has happened, or
it has happened before and the last operation does not clear. -/
theorem exists_since_clear_iff {os : List (Operation α)} {o' : Operation α}
    {event : List (Operation α) → Operation α → Prop} :
    (∃ pre o post, os ++ [o'] = pre ++ o :: post ∧ .clear ∉ post ∧ event pre o) ↔
      event os o' ∨
        o' ≠ .clear ∧ ∃ pre o post, os = pre ++ o :: post ∧ .clear ∉ post ∧ event pre o := by
  constructor
  · rintro ⟨pre, o, post, heq, hpost, hevent⟩
    rcases List.eq_nil_or_concat' post with rfl | ⟨post, last, rfl⟩
    · obtain ⟨rfl, hlast⟩ := List.append_inj' heq rfl
      cases hlast
      exact .inl hevent
    · rw [← List.cons_append, ← List.append_assoc] at heq
      obtain ⟨rfl, hlast⟩ := List.append_inj' heq rfl
      cases hlast
      refine .inr ⟨fun hclear => hpost ?_, pre, o, post, rfl,
        fun hmem => hpost (List.mem_append_left _ hmem), hevent⟩
      rw [hclear]
      exact List.mem_append_right _ List.mem_cons_self
  · rintro (hevent | ⟨hne, pre, o, post, rfl, hpost, hevent⟩)
    · exact ⟨os, o', [], rfl, List.not_mem_nil, hevent⟩
    · refine ⟨pre, o, post ++ [o'], by simp, fun hmem => ?_, hevent⟩
      rcases List.mem_append.mp hmem with hmem | hmem
      · exact hpost hmem
      · exact hne (List.mem_singleton.mp hmem).symm

/-- A solver that undoes nothing is poisoned exactly if something has failed in the tableau since it
was last cleared. -/
theorem poisoned_run_iff (hrollback : config.rollbackOnFailure = false)
    (os : List (Operation α)) :
    ((ofConfig config).run os).poisoned = true ↔
      ∃ pre o post, os = pre ++ o :: post ∧ .clear ∉ post ∧
        ((ofConfig config).run pre).failsInTableau o = true := by
  induction os using List.reverseRecOn with
  | nil =>
    refine iff_of_false nofun ?_
    rintro ⟨pre, o, post, heq, -⟩
    cases pre <;> cases heq
  | append_singleton os o ih =>
    rw [exists_since_clear_iff, ← ih, run_append]
    by_cases ho : o = .clear
    · rw [ho]
      exact iff_of_false nofun fun h => h.elim nofun fun h => h.1 rfl
    · have hstep := ((backed_run config os).step_of_ne_clear ho).2
      rw [hrollback, Bool.not_false, Bool.and_true] at hstep
      show (((ofConfig config).run os).step o).2.poisoned = true ↔ _
      rw [hstep, Bool.or_eq_true, or_comm, and_iff_right ho]

theorem read_of_poisoned (hpoisoned : s.poisoned = true) (x : Variable) :
    s.read x = .unsolvable := by
  rw [read, if_pos hpoisoned]

/-! ## Every run -/

/-- Whatever the arithmetic, the configuration and the operations are:

* a batch can be opened exactly if none is open, closing one fails for want of one exactly if none is
  open, and only the operations on batches, and clearing, open or close one;
* if failures are undone, a batch that fails at its end leaves the tableau and the books that there
  were when it was opened;
* if they are not, the solver is poisoned exactly if an operation has failed in the tableau since it
  was last cleared, and a poisoned solver has no values. -/
theorem run_transactions {os : List (Operation α)} (hs : (ofConfig config).run os = s) :
    ((s.step .openBatch).1 = .ok .done ↔ s.isBatching = false) ∧
    ((s.step .closeBatch).1 = .error .noBatch ↔ s.isBatching = false) ∧
    (∀ o, (s.step o).2.isBatching = o.leavesOpen s.isBatching) ∧
    (config.rollbackOnFailure = true → ∀ pre mid, os = pre ++ .openBatch :: mid →
      ((ofConfig config).run pre).isBatching = false →
      (∀ o ∈ mid, o.leavesOpen true = true) → refused (s.step .closeBatch).1 = true →
      (s.step .closeBatch).2.state = ((ofConfig config).run pre).state) ∧
    (config.rollbackOnFailure = false → (s.poisoned = true ↔
      ∃ pre o post, os = pre ++ o :: post ∧ .clear ∉ post ∧
        ((ofConfig config).run pre).failsInTableau o = true)) ∧
    (s.poisoned = true → ∀ x, s.read x = .unsolvable) := by
  refine ⟨step_openBatch_eq_ok_iff s, step_closeBatch_eq_noBatch_iff s, isBatching_step s,
    fun hrollback pre mid heq hclosed hmid hrefused => ?_,
    fun hrollback => hs ▸ poisoned_run_iff hrollback os, read_of_poisoned⟩
  -- The snapshot is the state before the batch, and nothing in the batch replaces it
  have hopen : (((ofConfig config).run pre).step .openBatch).2.batch =
      some ⟨some ((ofConfig config).run pre).state⟩ := by
    rw [step_openBatch_of_closed hclosed, (backed_run config pre).config_eq, if_pos hrollback]
  have hbatch := batch_run_of_open hopen hmid
  have hrun : s = (((ofConfig config).run pre).step .openBatch).2.run mid := by
    rw [← hs, heq, run_append]
    rfl
  rw [← hrun] at hbatch
  exact state_closeBatch hbatch hrefused

/-- A variable is held to a value. -/
def pinned : List (Operation Rat) := [.insert ((Variable.external 0).heldAt 1) .required]

/-- The pinned variable is set free, and another one is held to two values, which takes a pivot. -/
def loosened : List (Operation Rat) :=
  [.remove ⟨.ofIndex .dummy false 0, none⟩, .insert ((Variable.external 1).heldAt 5) .weak,
    .insert ((Variable.external 1).heldAt 7) .strong]

/-- Without pivots the batch cannot be closed. Where failures are undone, the removal in it is
undone as well; where they are not, the solver has no values any more. -/
theorem run_transactions_loosened :
    (((ofConfig ⟨0, true, 0⟩).run (pinned ++ .openBatch :: loosened)).step .closeBatch).2.state =
      ((ofConfig ⟨0, true, 0⟩).run pinned).state ∧
    ((ofConfig ⟨0, false, 0⟩).run (pinned ++ .openBatch :: loosened ++ [.closeBatch])).read
      (.external 0) = .unsolvable ∧
    ∃ pre o post, pinned ++ .openBatch :: loosened ++ [.closeBatch] = pre ++ o :: post ∧
      .clear ∉ post ∧ ((ofConfig ⟨0, false, 0⟩).run pre).failsInTableau o = true := by
  have hpoisoned : ((ofConfig ⟨0, false, 0⟩).run
      (pinned ++ .openBatch :: loosened ++ [.closeBatch])).poisoned = true := by decide +kernel
  obtain ⟨-, -, -, hback, -⟩ := @run_transactions Rat _ ⟨0, true, 0⟩ _ _ rfl
  obtain ⟨-, -, -, -, hfailed, hread⟩ := @run_transactions Rat _ ⟨0, false, 0⟩ _ _ rfl
  refine ⟨hback rfl pinned loosened rfl (by decide +kernel) ?_ (by decide +kernel), hread hpoisoned _,
    (hfailed rfl).mp hpoisoned⟩
  intro o ho
  simp only [loosened, List.mem_cons, List.not_mem_nil, or_false] at ho
  rcases ho with rfl | rfl | rfl <;> rfl

end Solver

end Cassowary
