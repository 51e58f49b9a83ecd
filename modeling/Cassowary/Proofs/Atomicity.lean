import Cassowary.Proofs.Undo
import Cassowary.Solver.Run

/-!
# Failed operations change nothing

A solver that undoes failures is, after an operation that it refuses, the solver that it was before:
the same rows in the same order with the same cells, the same objective, queue and counts, the same
books, and the same open batch. Only the count of failures grows, and only if the operation got as
far as the tableau. No law of arithmetic is used, so this is true of floating point.

## Main definitions

* `Solver.AtRest` — no operation is being noted, and the settings are those of the configuration
* `Solver.reachesTableau` — whether an operation gets as far as the tableau
* `Operation.single`, `Operation.added` — an operation on one constraint, and what it inserts
* `refused` — whether an answer tells that nothing was done

## Main results

* `Solver.ensures_guarded`, `Solver.ensures_guarded_cases` — an operation on the tableau is done or
  undone, or else the solver is poisoned
* `Solver.ensures_insert_of`, `Solver.ensures_remove_of`, `Solver.ensures_startEdit_of`,
  `Solver.ensures_stopEdit_of`, `Solver.ensures_suggest_of`, `Solver.ensures_openBatch_of`,
  `Solver.ensures_closeBatch_of` — what each operation is made of
* `Solver.ensures_perform_single` — what insertions, removals and moved targets keep
* `Solver.Reachable.atRest` — every solver that a run leads to is at rest
* `Solver.step_of_refused` — a refused operation leaves the solver as it was
-/

namespace Cassowary

variable {α : Type}

namespace Tableau

/-- Nothing is in progress: no change is being noted, and there is no artificial objective. -/
structure AtRest (config : Config α) (t : Tableau α) : Prop where
  journal : t.journal = none
  artificial : t.artificial = none
  epsilon : t.epsilon = config.epsilon
  maxIterations : t.maxIterations = config.maxIterations

variable {config : Config α} {t t₀ : Tableau α}

/-- A tableau whose changes are kept is at rest again. -/
theorem AtRest.commit (h : t₀.AtRest config) (ht : t.RecoversTo t₀ ∨ t.RecoversTo t₀.begin) :
    t.commit.AtRest config := by
  rcases ht with ht | ht <;>
    exact ⟨rfl, ht.2, ht.1.epsilon.trans h.epsilon, ht.1.maxIterations.trans h.maxIterations⟩

/-- Where nothing is noted from the start, nothing is noted later. -/
theorem AtRest.of_recoversTo (h : t₀.AtRest config) (ht : t.RecoversTo t₀) : t.AtRest config where
  journal := by simpa [h.journal] using ht.1.isSome_journal
  artificial := ht.2
  epsilon := ht.1.epsilon.trans h.epsilon
  maxIterations := ht.1.maxIterations.trans h.maxIterations

theorem AtRest.recoversTo (h : t.AtRest config) : t.RecoversTo t :=
  ⟨.of_journal_eq_none h.journal, h.artificial⟩

theorem AtRest.begin_recoversTo (h : t.AtRest config) : t.begin.RecoversTo t.begin :=
  ⟨.begin t, h.artificial⟩

end Tableau

namespace Solver

open Attempt

/-- Between operations nothing is in progress, in the state and in the state that an open batch goes
back to. -/
structure AtRest (config : Config α) (s : Solver α) : Prop where
  config_eq : s.config = config
  tableau : s.state.tableau.AtRest config
  snapshot : ∀ b state, s.batch = some b → b.snapshot = some state → state.tableau.AtRest config

variable {config : Config α} {s : Solver α}

/-- An operation on the tableau is either done, and then only the tableau changes, or undone, and
then nothing does. -/
theorem ensures_guarded {β : Type} {operation : Attempt (Tableau α) β}
    (hoperation : ∀ t₀, Keeps operation (Tableau.RecoversTo · t₀)) (hs : s.AtRest config) :
    Ensures (guarded operation) s
      (fun _ s' => ∃ t : Tableau α, t.AtRest config ∧
        s' = { s with state := { s.state with tableau := t } })
      fun _ s' => s'.AtRest config ∧
        (config.rollbackOnFailure = true → s' = { s with failures := s.failures + 1 }) := by
  have hrest := hs.tableau
  cases hrollback : s.config.rollbackOnFailure with
  | true =>
    have hkept := hoperation _ _ hrest.begin_recoversTo
    unfold Ensures guarded at *
    simp only [hrollback, if_true]
    split at hkept
    · next heq =>
      rw [heq]
      exact ⟨_, hrest.commit (.inr hkept), rfl⟩
    · next cause t heq =>
      rw [heq]
      have hback := hkept.1.rollback_eq hrest.journal hrest.artificial
      have hundone : s.recovered t = { s with failures := s.failures + 1 } := by
        unfold recovered
        simp only [hrollback, if_true, hback]
      exact ⟨by rw [hundone]; exact ⟨hs.config_eq, hrest, hs.snapshot⟩, fun _ => hundone⟩
  | false =>
    have hkept := hoperation _ _ hrest.recoversTo
    unfold Ensures guarded at *
    simp only [hrollback, Bool.false_eq_true, if_false]
    split at hkept
    · next heq =>
      rw [heq]
      exact ⟨_, hrest.commit (.inl hkept), rfl⟩
    · next heq =>
      rw [heq]
      refine ⟨?_, fun h => ?_⟩
      · unfold recovered
        simp only [hrollback, Bool.false_eq_true, if_false]
        exact ⟨hs.config_eq, hrest.of_recoversTo hkept, hs.snapshot⟩
      · rw [hs.config_eq, h] at hrollback
        cases hrollback

/-- The tableau that an operation starts from. If the operation can be undone, its changes are
noted. -/
def opening (s : Solver α) : Tableau α :=
  if s.config.rollbackOnFailure then s.state.tableau.begin else s.state.tableau

theorem opening_cases (s : Solver α) :
    s.opening = s.state.tableau ∨ s.opening = s.state.tableau.begin := by
  unfold opening
  split <;> simp

theorem nextId_opening (s : Solver α) : s.opening.nextId = s.state.tableau.nextId := by
  rcases s.opening_cases with heq | heq
  · rw [heq]
  · rw [heq]
    rfl

theorem rows_opening (s : Solver α) : s.opening.rows = s.state.tableau.rows := by
  rcases s.opening_cases with heq | heq
  · rw [heq]
  · rw [heq]
    rfl

theorem guarded_eq {β : Type} (operation : Attempt (Tableau α) β) (s : Solver α) :
    guarded operation s = match operation s.opening with
      | .ok b t => .ok b { s with state := { s.state with tableau := t.commit } }
      | .error cause t => .error cause (s.recovered t) := rfl

variable {β : Type} {operation : Attempt (Tableau α) β} {done : β → Tableau α → Prop}
  {failed : SolverError → Tableau α → Prop}

/-- An operation on the tableau is done, or it fails and is undone, or it leaves behind what it has
come to in a solver that is poisoned. -/
theorem ensures_guarded_cases (hkeeps : ∀ t₀, Keeps operation (Tableau.RecoversTo · t₀))
    (hs : s.AtRest config) (hoperation : Ensures operation s.opening done failed) :
    Ensures (guarded operation) s
      (fun b s' => ∃ t, done b t ∧ s' = { s with state := { s.state with tableau := t.commit } })
      fun cause s' => ∃ t, failed cause t ∧ ((∃ n, s' = { s with failures := n }) ∨
        ∃ n, s' = { s with
          state := { s.state with tableau := t }, failures := n, poisoned := true }) := by
  have hundone := ensures_guarded hkeeps hs
  -- The two statements are about one run of the operation
  unfold Ensures at *
  rw [guarded_eq] at *
  cases hresult : operation s.opening with
  | ok b t =>
    rw [hresult] at hoperation
    exact ⟨t, hoperation, rfl⟩
  | error cause t =>
    rw [hresult] at hoperation hundone
    refine ⟨t, hoperation, ?_⟩
    cases hrollback : config.rollbackOnFailure with
    | true => exact .inl ⟨_, hundone.2 hrollback⟩
    | false =>
      have hkept : s.config.rollbackOnFailure = false := by rw [hs.config_eq, hrollback]
      refine .inr ⟨s.failures + 1, ?_⟩
      unfold recovered
      simp only [hkept, Bool.false_eq_true, if_false]

/-- After a failure a solver is poisoned, or it is as it was but for the count of failures. -/
def Failed (s s' : Solver α) : Prop := s'.poisoned = true ∨ ∃ n, s' = { s with failures := n }

theorem ensures_guarded_opening (hkeeps : ∀ t₀, Keeps operation (Tableau.RecoversTo · t₀))
    (hs : s.AtRest config) (hoperation : Ensures operation s.opening done failed) :
    Ensures (guarded operation) s
      (fun b s' => ∃ t, done b t ∧ s' = { s with state := { s.state with tableau := t.commit } })
      fun cause s' => (∃ t, failed cause t) ∧ s.Failed s' := by
  refine (ensures_guarded_cases hkeeps hs hoperation).imp (fun _ _ => id) fun cause s' h => ?_
  obtain ⟨t, ht, hundone | ⟨n, rfl⟩⟩ := h
  · exact ⟨⟨t, ht⟩, .inr hundone⟩
  · exact ⟨⟨t, ht⟩, .inl rfl⟩

variable [Scalar α]

/-! ## What operations are made of -/

/-- An insertion is what the tableau makes of it. The books note it if it is done. -/
theorem ensures_insert_of {c : Constraint α} {w : Strength α} {done : Handle → Solver α → Prop}
    {failed : SolverError → Solver α → Prop}
    (hadd : Ensures (guarded (Tableau.addConstraint c w s.isBatching)) s
      (fun h s' => done h { s' with
        state := s'.state.register h ⟨c, w⟩, insertions := s'.insertions + 1 }) failed) :
    Ensures (insert c w) s done failed := by
  unfold insert
  rw [ensures_bind, ensures_get, ensures_bind]
  exact hadd

/-- A removal does nothing if the solver does not hold the constraint, and otherwise what the
tableau makes of it. -/
theorem ensures_remove_of {h : Handle} {done : Bool → Solver α → Prop}
    {failed : SolverError → Solver α → Prop} (hnone : s.state.constraints.get? h = none → done false s)
    (hsome : ∀ r, s.state.constraints.get? h = some r →
      Ensures (guarded (Tableau.removeConstraint h r.strength s.isBatching)) s
        (fun _ s' => done true
          { s' with state := s'.state.unregister h, removals := s'.removals + 1 })
        fun _ s' => done false s') : Ensures (remove h) s done failed := by
  unfold Ensures remove
  cases hr : s.state.constraints.get? h with
  | none => exact hnone hr
  | some r =>
    have hguarded := hsome r hr
    unfold Ensures at hguarded
    dsimp only
    split at hguarded
    · next heq =>
      rw [heq]
      exact hguarded
    · next heq =>
      rw [heq]
      exact hguarded

/-- A variable becomes an edit variable by the insertion of a constraint that holds it, if it is
none yet and the constraint may be violated. -/
theorem ensures_startEdit_of {x : Variable} {w : Strength α} {done : Unit → Solver α → Prop}
    {failed : SolverError → Solver α → Prop}
    (hedit : s.isEdit x = true → failed (.duplicateEditVariable x.key) s)
    (hrequired : w.isRequired = true → failed .requiredEditStrength s)
    (hinsert : s.isEdit x = false → w.isRequired = false →
      Ensures (insert (x.heldAt ((s.read x).getD 0)) w) s
        (fun h s' => done () { s' with state := { s'.state with
          edits := s'.state.edits.insert x ⟨h, (s.read x).getD 0⟩ } }) failed) :
    Ensures (startEdit x w) s done failed := by
  unfold startEdit
  rw [ensures_bind, ensures_get]
  by_cases hx : s.isEdit x = true
  · rw [if_pos hx]
    exact hedit hx
  · rw [if_neg hx]
    by_cases hw : w.isRequired = true
    · rw [if_pos hw]
      exact hrequired hw
    · rw [if_neg hw]
      simp only [ensures_bind]
      exact hinsert (Bool.not_eq_true _ |>.mp hx) (Bool.not_eq_true _ |>.mp hw)

/-- An edit variable becomes an ordinary one by the removal of the constraint that holds it. -/
theorem ensures_stopEdit_of {x : Variable} {done : Unit → Solver α → Prop}
    {failed : SolverError → Solver α → Prop}
    (hnone : s.state.edits.get? x = none → failed (.unknownEditVariable x.key) s)
    (hsome : ∀ e, s.state.edits.get? x = some e → Ensures (remove e.handle) s
      (fun gone s' => if gone then
          done () { s' with state := { s'.state with edits := s'.state.edits.erase x } }
        else failed .unsatisfiable s') failed) : Ensures (stopEdit x) s done failed := by
  unfold stopEdit
  rw [ensures_bind, ensures_get]
  cases he : s.state.edits.get? x with
  | none => exact hnone he
  | some e =>
    dsimp only
    rw [ensures_bind]
    refine (hsome e he).imp (fun gone s' hdone => ?_) fun _ _ => id
    cases gone with
    | false => exact hdone
    | true => exact hdone

/-- A target is moved by what the tableau makes of the way that it moves. -/
theorem ensures_suggest_of {x : Variable} {target : α} {done : Unit → Solver α → Prop}
    {failed : SolverError → Solver α → Prop}
    (hnone : s.state.edits.get? x = none → failed (.unknownEditVariable x.key) s)
    (hsome : ∀ e, s.state.edits.get? x = some e →
      Ensures (guarded (Tableau.suggest e.handle (target - e.target))) s
        (fun _ s' => done () { s' with state := { s'.state with
          edits := s'.state.edits.alter x fun e => e.map ({ · with target := target }) } })
        failed) : Ensures (suggest x target) s done failed := by
  unfold suggest
  rw [ensures_bind, ensures_get]
  cases he : s.state.edits.get? x with
  | none => exact hnone he
  | some e =>
    dsimp only
    rw [ensures_bind]
    exact hsome e he

omit [Scalar α] in
/-- What is opened is a batch that goes back to the state that there is, if it goes back at all. -/
theorem ensures_openBatch_of {done : Unit → Solver α → Prop}
    {failed : SolverError → Solver α → Prop}
    (hopen : s.isBatching = true → failed .batchInProgress s)
    (hclosed : s.batch = none → ∀ b : Batch α, (∀ state, b.snapshot = some state → state = s.state) →
      done () { s with batch := some b }) : Ensures openBatch s done failed := by
  unfold openBatch
  rw [ensures_bind, ensures_get]
  by_cases hbatch : s.isBatching = true
  · rw [if_pos hbatch]
    exact hopen hbatch
  · rw [if_neg hbatch]
    refine hclosed (Option.not_isSome_iff_eq_none.mp hbatch) _ fun state hsnapshot => ?_
    dsimp only at hsnapshot
    split at hsnapshot
    · exact (Option.some_inj.mp hsnapshot).symm
    · cases hsnapshot

/-- A batch that is closed ends where solving ends. If that fails, it goes back to its snapshot, or
the solver is poisoned. -/
theorem ensures_closeBatch_of {done : Unit → Solver α → Prop}
    {failed : SolverError → Solver α → Prop} (hnone : s.batch = none → failed .noBatch s)
    (hsome : ∀ b, s.batch = some b → Ensures Tableau.solve s.state.tableau
      (fun _ t => done () { s with state := { s.state with tableau := t }, batch := none })
      fun cause t =>
        (∀ state, b.snapshot = some state → failed cause
          { s with state := state, batch := none, failures := s.failures + 1 }) ∧
        (b.snapshot = none → failed cause { s with
          state := { s.state with tableau := t }
          batch := none
          failures := s.failures + 1
          poisoned := true })) : Ensures closeBatch s done failed := by
  unfold Ensures closeBatch
  cases hb : s.batch with
  | none => exact hnone hb
  | some b =>
    have hsolve := hsome b hb
    unfold Ensures at hsolve
    dsimp only
    split at hsolve
    · next heq =>
      rw [heq]
      exact hsolve
    · next heq =>
      rw [heq]
      unfold restored
      dsimp only
      split
      · next state hsnapshot => exact hsolve.1 state hsnapshot
      · next hnone => exact hsolve.2 hnone

/-! ## Constraints -/

/-- The answer to a removal tells whether the tableau has done it. -/
theorem outcome_remove {h : Handle} {r : Record α} (hr : s.state.constraints.get? h = some r) :
    ((remove h).outcome s).1 = .ok
      ((guarded (Tableau.removeConstraint h r.strength s.isBatching)).outcome s).1.toBool := by
  unfold Attempt.outcome remove
  rw [hr]
  dsimp only
  cases guarded (Tableau.removeConstraint h r.strength s.isBatching) s <;> rfl

/-- An insertion that fails is counted and otherwise undone. -/
theorem ensures_insert (c : Constraint α) (w : Strength α) (hs : s.AtRest config) :
    Ensures (insert c w) s (fun _ s' => s'.AtRest config) fun _ s' => s'.AtRest config ∧
      (config.rollbackOnFailure = true → s' = { s with failures := s.failures + 1 }) := by
  refine ensures_insert_of ((ensures_guarded (fun _ => Tableau.keeps_addConstraint c w _) hs).imp
    (fun h s' hdone => ?_) fun _ _ => id)
  obtain ⟨t, ht, rfl⟩ := hdone
  exact ⟨hs.config_eq, ht, hs.snapshot⟩

/-- A removal that is refused is counted if the solver holds the constraint, and otherwise
undone. -/
theorem ensures_remove (h : Handle) (hs : s.AtRest config) :
    Ensures (remove h) s
      (fun gone s' => s'.AtRest config ∧ (gone = false → config.rollbackOnFailure = true →
        s' = { s with failures := s.failures + if s.holds h then 1 else 0 }))
      fun _ _ => False := by
  refine ensures_remove_of (fun hr => ?_) fun r hr => ?_
  · have hholds : s.holds h = false := by rw [holds, Table.contains, hr, Option.isSome_none]
    exact ⟨hs, fun _ _ => by simp [hholds]⟩
  · have hholds : s.holds h = true := by rw [holds, Table.contains, hr, Option.isSome_some]
    refine (ensures_guarded (fun _ => Tableau.keeps_removeConstraint h r.strength s.isBatching)
      hs).imp ?_ fun _ _ h => ⟨h.1, fun _ hrollback => by simpa [hholds] using h.2 hrollback⟩
    rintro _ _ ⟨t, ht, rfl⟩
    refine ⟨⟨hs.config_eq, ?_, hs.snapshot⟩, fun hgone => by cases hgone⟩
    unfold State.unregister
    split <;> exact ht

/-! ## One operation -/

/-- Whether an operation gets as far as the tableau. -/
def reachesTableau (s : Solver α) : Operation α → Bool
  | .insert _ _ => true
  | .remove h => s.holds h
  | .startEdit x w => !s.isEdit x && !w.isRequired
  | .stopEdit x => (s.state.edits.get? x).any fun e => s.holds e.handle
  | .suggest x _ => s.isEdit x
  | .openBatch | .closeBatch | .clear => false

/-- The solver after an operation that was refused. -/
def afterRefusal (s : Solver α) (o : Operation α) : Solver α :=
  { s with failures := s.failures + if s.reachesTableau o then 1 else 0 }

theorem ensures_startEdit (x : Variable) (w : Strength α) (hs : s.AtRest config) :
    Ensures (startEdit x w) s (fun _ s' => s'.AtRest config) fun _ s' => s'.AtRest config ∧
      (config.rollbackOnFailure = true → s' = s.afterRefusal (.startEdit x w)) := by
  refine ensures_startEdit_of (fun hedit => ?_) (fun hw => ?_) fun hedit hw =>
    (ensures_insert _ w hs).imp (fun h s' hs' => ?_) fun _ s' hs' => ?_
  · simp [hedit, afterRefusal, reachesTableau, hs]
  · simp [hw, afterRefusal, reachesTableau, hs]
  · exact ⟨hs'.config_eq, hs'.tableau, hs'.snapshot⟩
  · simpa [afterRefusal, reachesTableau, hedit, hw] using hs'

theorem ensures_suggest (x : Variable) (target : α) (hs : s.AtRest config) :
    Ensures (suggest x target) s (fun _ s' => s'.AtRest config) fun _ s' => s'.AtRest config ∧
      (config.rollbackOnFailure = true → s' = s.afterRefusal (.suggest x target)) := by
  refine ensures_suggest_of (fun he => ?_) fun e he => ?_
  · simp [afterRefusal, reachesTableau, isEdit, Table.contains, he, hs]
  · have hedit : s.isEdit x = true := by rw [isEdit, Table.contains, he, Option.isSome_some]
    refine (ensures_guarded (fun _ => Tableau.keeps_suggest e.handle _) hs).imp
      (fun _ s' hdone => ?_) fun _ s' hs' => ?_
    · obtain ⟨t, ht, rfl⟩ := hdone
      exact ⟨hs.config_eq, ht, hs.snapshot⟩
    · simpa [afterRefusal, reachesTableau, hedit] using hs'

theorem ensures_stopEdit (x : Variable) (hs : s.AtRest config) :
    Ensures (stopEdit x) s (fun _ s' => s'.AtRest config) fun _ s' => s'.AtRest config ∧
      (config.rollbackOnFailure = true → s' = s.afterRefusal (.stopEdit x)) := by
  refine ensures_stopEdit_of (fun he => ?_) fun e he =>
    (ensures_remove e.handle hs).imp (fun gone s' hs' => ?_) fun _ _ => False.elim
  · simp [afterRefusal, reachesTableau, he, hs]
  · cases gone with
    | true => exact ⟨hs'.1.config_eq, hs'.1.tableau, hs'.1.snapshot⟩
    | false => simpa [afterRefusal, reachesTableau, he] using hs'

omit [Scalar α] in
theorem AtRest.openBatch (hs : s.AtRest config) :
    Ensures openBatch s (fun _ s' => s'.AtRest config) fun _ s' => s'.AtRest config := by
  refine ensures_openBatch_of (fun _ => hs) fun _ b hb => ⟨hs.config_eq, hs.tableau, ?_⟩
  rintro _ state ⟨⟩ hsnapshot
  rw [hb state hsnapshot]
  exact hs.tableau

theorem AtRest.closeBatch (hs : s.AtRest config) :
    Ensures closeBatch s (fun _ s' => s'.AtRest config) fun _ s' => s'.AtRest config := by
  refine ensures_closeBatch_of (fun _ => hs) fun b hb =>
    ((Tableau.stable_recoversTo s.state.tableau).solve _ hs.tableau.recoversTo).imp
      (fun _ t ht => ⟨hs.config_eq, hs.tableau.of_recoversTo ht, fun _ _ => nofun⟩)
      fun _ t ht => ⟨fun state hsnapshot => ?_, fun _ => ?_⟩
  · exact ⟨hs.config_eq, hs.snapshot b state hb hsnapshot, fun _ _ => nofun⟩
  · exact ⟨hs.config_eq, hs.tableau.of_recoversTo ht, fun _ _ => nofun⟩

theorem AtRest.clear (hs : s.AtRest config) : s.clear.AtRest config :=
  ⟨hs.config_eq, ⟨rfl, rfl, hs.tableau.epsilon, hs.tableau.maxIterations⟩,
    fun _ _ hbatch => by cases hbatch⟩

/-- Every operation leaves a solver at rest. -/
theorem keeps_perform (o : Operation α) : Keeps (perform o) (AtRest config) := by
  intro s hs
  cases o with
  | insert c w =>
    exact ensures_map _ |>.mpr ((ensures_insert c w hs).imp (fun _ _ => id) fun _ _ => And.left)
  | remove h =>
    exact ensures_map _ |>.mpr
      ((ensures_remove h hs).imp (fun _ _ => And.left) fun _ _ => False.elim)
  | startEdit x w =>
    exact ensures_bind _ |>.mpr ((ensures_startEdit x w hs).imp (fun _ _ => id) fun _ _ => And.left)
  | stopEdit x =>
    exact ensures_bind _ |>.mpr ((ensures_stopEdit x hs).imp (fun _ _ => id) fun _ _ => And.left)
  | suggest x target =>
    exact ensures_bind _ |>.mpr
      ((ensures_suggest x target hs).imp (fun _ _ => id) fun _ _ => And.left)
  | openBatch => exact ensures_bind _ |>.mpr hs.openBatch
  | closeBatch => exact ensures_bind _ |>.mpr hs.closeBatch
  | clear => exact hs.clear

theorem atRest_ofConfig (config : Config α) : (ofConfig config).AtRest config :=
  ⟨rfl, ⟨rfl, rfl, rfl, rfl⟩, fun _ _ hbatch => by cases hbatch⟩

theorem run_append (s : Solver α) (os os' : List (Operation α)) :
    s.run (os ++ os') = (s.run os).run os' :=
  List.foldl_append

/-- What every operation of a run keeps, the run keeps. -/
theorem run_induction {P : Solver α → Prop} {os : List (Operation α)} (hs : P s)
    (h : ∀ o ∈ os, Keeps (perform o) P) : P (s.run os) := by
  induction os generalizing s with
  | nil => exact hs
  | cons o os ih =>
    exact ih ((h o List.mem_cons_self).outcome hs) fun o ho => h o (List.mem_cons_of_mem _ ho)

/-- Every solver that a run leads to is at rest. -/
theorem Reachable.atRest (h : Reachable config s) : s.AtRest config := by
  obtain ⟨os, rfl⟩ := h
  exact run_induction (atRest_ofConfig config) fun o _ => keeps_perform o

end Solver

/-! ## Refusals -/

/-- Whether an operation is about one constraint or edit variable. -/
def Operation.single : Operation α → Bool
  | .insert _ _ | .remove _ | .startEdit _ _ | .stopEdit _ | .suggest _ _ => true
  | .openBatch | .closeBatch | .clear => false

/-- The constraint that an operation inserts, if it is one that does, and its strength. -/
def Operation.added [Scalar α] (s : Solver α) : Operation α → Option (Constraint α × Strength α)
  | .insert c w => some (c, w)
  | .startEdit x w => some (x.heldAt ((s.read x).getD 0), w)
  | _ => none

/-- The handle of the constraint that an operation removes, if it is one that does. -/
def Operation.removes (s : Solver α) : Operation α → Option Handle
  | .remove h => some h
  | .stopEdit x => (s.state.edits.get? x).map (·.handle)
  | _ => none

/-- The handle of the constraint whose target an operation moves, if it is one that does. -/
def Operation.moves (s : Solver α) : Operation α → Option Handle
  | .suggest x _ => (s.state.edits.get? x).map (·.handle)
  | _ => none

namespace Solver

open Attempt

/-- The operations on constraints and edit variables insert, remove, or move a target, and note what
becomes of the edit variables. -/
theorem ensures_perform_single [Scalar α] {s : Solver α} {P : Solver α → Prop} {o : Operation α}
    (ho : o.single = true) (hs : P s)
    (hedits : ∀ (s : Solver α) edits, P s → P { s with state := { s.state with edits := edits } })
    (hinsert : ∀ c w, o.added s = some (c, w) → Ensures (insert c w) s (fun _ => P) fun _ => P)
    (hremove : ∀ h, o.removes s = some h → Ensures (remove h) s (fun _ => P) fun _ => P)
    (hsuggest : ∀ h delta, o.moves s = some h →
      Ensures (guarded (Tableau.suggest h delta)) s (fun _ => P) fun _ => P) :
    Ensures (perform o) s (fun _ => P) fun _ => P := by
  cases o with
  | insert c w => exact ensures_map _ |>.mpr (hinsert c w rfl)
  | remove h => exact ensures_map _ |>.mpr (hremove h rfl)
  | startEdit x w =>
    exact ensures_bind _ |>.mpr (ensures_startEdit_of (fun _ => hs) (fun _ => hs) fun _ _ =>
      (hinsert _ w rfl).imp (fun _ _ hs' => hedits _ _ hs') fun _ _ => id)
  | stopEdit x =>
    refine ensures_bind _ |>.mpr (ensures_stopEdit_of (fun _ => hs) fun e he => ?_)
    have hremoves : (Operation.stopEdit x).removes s = some e.handle := by
      rw [Operation.removes, he, Option.map_some]
    refine (hremove e.handle hremoves).imp (fun gone s' hs' => ?_) fun _ _ => id
    cases gone with
    | false => exact hs'
    | true => exact hedits _ _ hs'
  | suggest x target =>
    refine ensures_bind _ |>.mpr (ensures_suggest_of (fun _ => hs) fun e he => ?_)
    have hmoves : (Operation.suggest x target).moves s = some e.handle := by
      rw [Operation.moves, he, Option.map_some]
    exact (hsuggest e.handle _ hmoves).imp (fun _ _ hs' => hedits _ _ hs') fun _ _ => id
  | openBatch | closeBatch | clear => simp [Operation.single] at ho

end Solver

/-- Whether an answer tells that nothing was done: an error, or a constraint that is not gone. -/
def refused : Except SolverError Answer → Bool
  | .error _ => true
  | .ok answer => answer = .removed false

namespace Solver

open Attempt

variable [Scalar α] {config : Config α} {s : Solver α}

/-- An operation on one constraint or edit variable that is refused leaves a solver that undoes
failures exactly as it was, but for the count of failures. That grows by one if the operation got as
far as the tableau. -/
theorem step_of_refused (hrollback : config.rollbackOnFailure = true) (hs : Reachable config s)
    {o : Operation α} (ho : o.single = true) (hrefused : refused (s.step o).1 = true) :
    (s.step o).2 =
      { s with failures := s.failures + if s.reachesTableau o then 1 else 0 } := by
  have hrest := hs.atRest
  have hensures : Ensures (perform o) s
      (fun answer s' => answer = .removed false → s' = s.afterRefusal o)
      fun _ s' => s' = s.afterRefusal o := by
    cases o with
    | insert c w =>
      refine ensures_map _ |>.mpr ((ensures_insert c w hrest).imp ?_ ?_)
      · exact fun _ _ _ h => by cases h
      · exact fun _ _ h => h.2 hrollback
    | remove h =>
      refine ensures_map _ |>.mpr ((ensures_remove h hrest).imp ?_ fun _ _ => False.elim)
      exact fun gone _ h hgone => h.2 (by cases hgone; rfl) hrollback
    | startEdit x w =>
      refine ensures_bind _ |>.mpr ((ensures_startEdit x w hrest).imp ?_ ?_)
      · exact fun _ _ _ h => by cases h
      · exact fun _ _ h => h.2 hrollback
    | stopEdit x =>
      refine ensures_bind _ |>.mpr ((ensures_stopEdit x hrest).imp ?_ ?_)
      · exact fun _ _ _ h => by cases h
      · exact fun _ _ h => h.2 hrollback
    | suggest x target =>
      refine ensures_bind _ |>.mpr ((ensures_suggest x target hrest).imp ?_ ?_)
      · exact fun _ _ _ h => by cases h
      · exact fun _ _ h => h.2 hrollback
    | openBatch | closeBatch | clear => simp [Operation.single] at ho
  rcases hensures.outcome with ⟨answer, hanswer, hdone⟩ | ⟨cause, hcause, hfailed⟩
  · rw [step, hanswer] at hrefused
    exact hdone (of_decide_eq_true hrefused)
  · exact hfailed

/-- A batch that fixes a variable and has not been closed. -/
def halfway : List (Operation Rat) :=
  [.openBatch, .insert ((Variable.external 0).heldAt 5) .required]

theorem step_of_refused_halfway :
    refused (((ofConfig ⟨0, true, 100⟩).run halfway).step
        (.insert ((Variable.external 0).heldAt 6) .required)).1 = true ∧
      (((ofConfig ⟨0, true, 100⟩).run halfway).step
        (.insert ((Variable.external 0).heldAt 6) .required)).2 =
          { (ofConfig ⟨0, true, 100⟩).run halfway with failures := 1 } := by
  have hrefused : refused (((ofConfig ⟨0, true, 100⟩).run halfway).step
      (.insert ((Variable.external 0).heldAt 6) .required)).1 = true := by decide +kernel
  have hfailures : ((ofConfig ⟨0, true, 100⟩).run halfway).failures = 0 := by decide +kernel
  have hsame := @step_of_refused Rat _ ⟨0, true, 100⟩ _ rfl ⟨halfway, rfl⟩
    (.insert ((Variable.external 0).heldAt 6) .required) rfl hrefused
  rw [hfailures] at hsame
  exact ⟨hrefused, hsame⟩

end Solver

end Cassowary
