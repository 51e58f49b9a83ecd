import Cassowary.Proofs.Verdict

/-!
# Batches of insertions

A list of insertions can be given to a solver one by one, or in a batch. In a batch nothing is
optimised until the end, or until an insertion needs it, so the two solvers go through different
bases. But they hold the same constraints under the same symbols, and each insertion is answered by
its verdict, which depends on nothing else. So they answer alike, step by step. At the end both are
optimal, so their values cost the same.

A solver that does not undo failures is an exception. What the first failure leaves behind depends
on the basis, and so may all that comes after it.

## Main definitions

* `Solver.answers` — the answers of a run
* `Operation.insertAll`, `Operation.batched` — a list of insertions, and a batch around a run
* `Solver.Peers` — two solvers with values that are alike
* `Solver.Assembled` — the solvers that insertions lead to

## Main results

* `Solver.Peers.run_insertAll` — they stay alike while constraints are inserted
* `Solver.batched_answers` — the answers of a batch, and the cost of its values
-/

namespace Cassowary

open Attempt

/-! ## Answers -/

namespace Solver

variable {α : Type} [Scalar α]

/-- The answers to the operations of a run. -/
def answers (s : Solver α) : List (Operation α) → List (Except SolverError Answer)
  | [] => []
  | o :: os => (s.step o).1 :: answers (s.step o).2 os

theorem answers_append (s : Solver α) (os os' : List (Operation α)) :
    s.answers (os ++ os') = s.answers os ++ (s.run os).answers os' := by
  induction os generalizing s with
  | nil => rfl
  | cons o os ih => exact congrArg ((s.step o).1 :: ·) (ih (s.step o).2)

end Solver

namespace Operation

variable {α : Type}

/-- A list of insertions. -/
def insertAll (cs : List (Constraint α × Strength α)) : List (Operation α) :=
  cs.map fun e => .insert e.1 e.2

theorem insertAll_append (cs cs' : List (Constraint α × Strength α)) :
    insertAll (cs ++ cs') = insertAll cs ++ insertAll cs' := List.map_append

/-- An insertion clears nothing. -/
theorem ne_clear_of_mem_insertAll {cs : List (Constraint α × Strength α)} {o : Operation α}
    (ho : o ∈ insertAll cs) : o ≠ .clear := by
  obtain ⟨e, -, rfl⟩ := List.mem_map.mp ho
  nofun

/-- A run with a batch around it. -/
def batched (os : List (Operation α)) : List (Operation α) := .openBatch :: (os ++ [.closeBatch])

end Operation

namespace Solver

open Operation (insertAll batched)

variable {s s' : Solver Rat} {config : Config Rat} {c : Constraint Rat} {w : Strength Rat}
  {cs : List (Constraint Rat × Strength Rat)}

/-! ## One insertion -/

/-- An operation on the tableau changes the tableau, or it fails. -/
theorem ensures_guarded_state {β : Type} (operation : Attempt (Tableau Rat) β) (s : Solver Rat) :
    Ensures (guarded operation) s
      (fun _ s' => ∃ t, s' = { s with state := { s.state with tableau := t } })
      fun _ s' => ∃ t, s' = s.recovered t := by
  unfold Ensures guarded
  dsimp only
  split
  · next heq =>
    split at heq <;> cases heq
    exact ⟨_, rfl⟩
  · next heq =>
    split at heq <;> cases heq
    exact ⟨_, rfl⟩

/-- An insertion changes the tableau and registers the constraint, or it fails. -/
theorem ensures_insert_state (c : Constraint Rat) (w : Strength Rat) (s : Solver Rat) :
    Ensures (insert c w) s
      (fun h s' => ∃ t, s' = { s with
        state := State.register { s.state with tableau := t } h ⟨c, w⟩
        insertions := s.insertions + 1 })
      fun _ s' => ∃ t, s' = s.recovered t := by
  refine ensures_insert_of ((ensures_guarded_state _ s).imp ?_ fun _ _ => id)
  rintro h s' ⟨t, rfl⟩
  exact ⟨t, rfl⟩

/-- Where failures are not undone, a failure on the tableau poisons the solver. -/
theorem poisoned_recovered (hrollback : s.config.rollbackOnFailure = false) (t : Tableau Rat) :
    (s.recovered t).poisoned = true := by
  unfold recovered
  simp only [hrollback, Bool.false_eq_true, if_false]

/-- A poisoned solver stays so in a run that does not clear it. -/
theorem poisoned_run_of_poisoned (hs : s.poisoned = true) {os : List (Operation Rat)}
    (hos : ∀ o ∈ os, o ≠ .clear) : (s.run os).poisoned = true :=
  run_induction (P := fun s : Solver Rat => s.poisoned = true) hs fun o ho =>
    keeps_poisoned (hos o ho)

/-- A solver with values, in exact arithmetic. -/
structure Working (config : Config Rat) (s : Solver Rat) : Prop where
  rest : s.AtRest config
  sound : s.Sound True True
  poisoned : s.poisoned = false

/-- What is known of an insertion is known of the step that it is. -/
theorem step_insert_of_ensures {done : Handle → Solver Rat → Prop}
    {failed : SolverError → Solver Rat → Prop} (h : Ensures (insert c w) s done failed) :
    (∃ h, (s.step (.insert c w)).1 = .ok (.inserted h) ∧ done h (s.step (.insert c w)).2) ∨
      ∃ cause, (s.step (.insert c w)).1 = .error cause ∧ failed cause (s.step (.insert c w)).2 := by
  have hstep : s.step (.insert c w) =
      (((insert c w).outcome s).1.map .inserted, ((insert c w).outcome s).2) :=
    outcome_map _ _ s
  rw [hstep]
  rcases h.outcome with ⟨h, hanswer, hdone⟩ | ⟨cause, hcause, hfailed⟩
  · exact .inl ⟨h, by rw [hanswer]; rfl, hdone⟩
  · exact .inr ⟨cause, by rw [hcause]; rfl, hfailed⟩

/-- What is known of the failure of an insertion holds where the step fails. -/
theorem failed_of_ensures {done : Handle → Solver Rat → Prop}
    {failed : SolverError → Solver Rat → Prop} {cause : SolverError} {s' : Solver Rat}
    (hstep : s.step (.insert c w) = (.error cause, s')) (h : Ensures (insert c w) s done failed) :
    failed cause s' := by
  obtain ⟨hanswer, rfl⟩ := Prod.ext_iff.mp hstep
  rcases step_insert_of_ensures h with ⟨h, hok, -⟩ | ⟨cause', hcause, h⟩
  · cases hok.symm.trans hanswer
  · cases hcause.symm.trans hanswer
    exact h

/-- What an insertion comes to where the solver has values. -/
theorem Working.step_insert_cases (hs : s.Working config) (hc : c.OverLayout) (hw : 0 ≤ w.value) :
    (∃ h, (s.step (.insert c w)).1 = .ok (.inserted h) ∧ (s.step (.insert c w)).2.Working config ∧
      (s.step (.insert c w)).2.batch = s.batch ∧
      s.state.verdict c w = .ok (h, (s.step (.insert c w)).2.state.tableau.nextId) ∧
      s.state.constraints.get? h = none ∧
      ∃ t, (s.step (.insert c w)).2.state = State.register { s.state with tableau := t } h ⟨c, w⟩) ∨
    ∃ cause, (s.step (.insert c w)).1 = .error cause ∧
      ((∃ n, cause = .iterationLimit n) ∨ s.state.verdict c w = .error cause) ∧
      if config.rollbackOnFailure then (s.step (.insert c w)).2.Working config ∧
        (s.step (.insert c w)).2.batch = s.batch ∧ (s.step (.insert c w)).2.state = s.state
      else (s.step (.insert c w)).2.poisoned = true := by
  have hensures := (((ensures_insert_state c w s).and (ensures_insert c w hs.rest)).and
    (ensures_insert_sound hs.rest hs.sound hc fun _ => hw)).and
    (ensures_insert_verdict hs.rest hs.sound hc hw)
  rcases step_insert_of_ensures hensures with
    ⟨h, hanswer, ⟨⟨⟨t, ht⟩, hrest⟩, -, hsound, ⟨hnew, -⟩, -⟩, hverdict⟩ |
    ⟨cause, hcause, ⟨⟨⟨t, ht⟩, hrest, hundone⟩, -⟩, hverdict⟩
  · refine .inl ⟨h, hanswer, ⟨hrest, hsound, ?_⟩, ?_, hverdict, hnew, t, ?_⟩
    · rw [ht]
      exact hs.poisoned
    · rw [ht]
    · rw [ht]
  · refine .inr ⟨cause, hcause, hverdict, ?_⟩
    split
    · next hrollback =>
      have hsame := hundone hrollback
      refine ⟨⟨hrest, ?_, ?_⟩, ?_, ?_⟩ <;> rw [hsame]
      · exact ⟨hs.sound.state, hs.sound.settled, hs.sound.snapshot⟩
      · exact hs.poisoned
    · next hrollback =>
      rw [ht]
      refine poisoned_recovered ?_ t
      rw [hs.rest.config_eq]
      exact Bool.not_eq_true _ ▸ hrollback

/-- Two solvers with values that are alike but for their tableaux, and perhaps for a batch. -/
structure Peers (config : Config Rat) (s s' : Solver Rat) : Prop where
  left : s.Working config
  right : s'.Working config
  alike : s.state.Alike s'.state

/-- Peers answer an insertion alike and stay peers, unless it leaves both of them poisoned. -/
theorem Peers.step_insert (h : Peers config s s') (hc : c.OverLayout) (hw : 0 ≤ w.value)
    (hlimit : ∀ n, (s.step (.insert c w)).1 ≠ .error (.iterationLimit n))
    (hlimit' : ∀ n, (s'.step (.insert c w)).1 ≠ .error (.iterationLimit n)) :
    (s'.step (.insert c w)).1 = (s.step (.insert c w)).1 ∧
      ((s.step (.insert c w)).2.poisoned = true ∧ (s'.step (.insert c w)).2.poisoned = true ∨
        Peers config (s.step (.insert c w)).2 (s'.step (.insert c w)).2 ∧
          (s.step (.insert c w)).2.batch = s.batch ∧
          (s'.step (.insert c w)).2.batch = s'.batch) := by
  have hsame := h.alike.verdict_eq c w
  rcases h.left.step_insert_cases hc hw with
    ⟨a, hanswer, hworking, hbatch, hverdict, -, t, ht⟩ | ⟨cause, hcause, hverdict, hfailed⟩ <;>
  rcases h.right.step_insert_cases hc hw with
    ⟨a', hanswer', hworking', hbatch', hverdict', -, t', ht'⟩ | ⟨cause', hcause', hverdict', hfailed'⟩
  · rw [hverdict', hverdict] at hsame
    injection hsame with hsame
    injection hsame with hhandle hid
    subst hhandle
    refine ⟨by rw [hanswer, hanswer'], .inr ⟨⟨hworking, hworking', ?_, ?_, ?_, hid⟩, hbatch, hbatch'⟩⟩
      <;> rw [ht, ht']
    · exact congrArg (·.insert a' ⟨c, w⟩) h.alike.constraints
    · exact h.alike.edits
    · exact congrArg (c.keys.foldl State.refer ·) h.alike.references
  -- The verdict is the same for both, so one cannot succeed where the other fails
  · rcases hverdict' with ⟨n, rfl⟩ | hverdict'
    · exact absurd hcause' (hlimit' n)
    · rw [hverdict', hverdict] at hsame
      cases hsame
  · rcases hverdict with ⟨n, rfl⟩ | hverdict
    · exact absurd hcause (hlimit n)
    · rw [hverdict', hverdict] at hsame
      cases hsame
  · have hsame : cause' = cause := by
      rcases hverdict with ⟨n, rfl⟩ | hverdict
      · exact absurd hcause (hlimit n)
      rcases hverdict' with ⟨n, rfl⟩ | hverdict'
      · exact absurd hcause' (hlimit' n)
      rw [hverdict', hverdict] at hsame
      injection hsame
    refine ⟨by rw [hcause, hcause', hsame], ?_⟩
    split at hfailed
    · next hrollback =>
      rw [if_pos hrollback] at hfailed'
      obtain ⟨hworking, hbatch, hstate⟩ := hfailed
      obtain ⟨hworking', hbatch', hstate'⟩ := hfailed'
      exact .inr ⟨⟨hworking, hworking', by rw [hstate, hstate']; exact h.alike⟩, hbatch, hbatch'⟩
    · next hrollback =>
      rw [if_neg hrollback] at hfailed'
      exact .inl ⟨hfailed, hfailed'⟩

/-! ## Runs of insertions -/

/-- Peers answer a list of insertions alike and stay peers, unless it leaves both of them
poisoned. -/
theorem Peers.run_insertAll (h : Peers config s s') (hcs : ∀ e ∈ cs, e.1.OverLayout ∧ 0 ≤ e.2.value)
    (hlimit : ∀ n, .error (.iterationLimit n) ∉ s.answers (insertAll cs))
    (hlimit' : ∀ n, .error (.iterationLimit n) ∉ s'.answers (insertAll cs)) :
    (s.run (insertAll cs)).poisoned = true ∧ (s'.run (insertAll cs)).poisoned = true ∨
      Peers config (s.run (insertAll cs)) (s'.run (insertAll cs)) ∧
        s'.answers (insertAll cs) = s.answers (insertAll cs) ∧
        (s.run (insertAll cs)).batch = s.batch ∧ (s'.run (insertAll cs)).batch = s'.batch := by
  induction cs generalizing s s' with
  | nil => exact .inr ⟨h, rfl, rfl, rfl⟩
  | cons e cs ih =>
    obtain ⟨hc, hw⟩ := hcs e List.mem_cons_self
    have hrest := fun e he => hcs e (List.mem_cons_of_mem _ he)
    obtain ⟨hanswer, ⟨hpoisoned, hpoisoned'⟩ | ⟨hpeers, hbatch, hbatch'⟩⟩ := h.step_insert hc hw
      (fun n heq => hlimit n (List.mem_cons.mpr (.inl heq.symm)))
      fun n heq => hlimit' n (List.mem_cons.mpr (.inl heq.symm))
    · exact .inl ⟨poisoned_run_of_poisoned hpoisoned fun _ => Operation.ne_clear_of_mem_insertAll,
        poisoned_run_of_poisoned hpoisoned' fun _ => Operation.ne_clear_of_mem_insertAll⟩
    · refine (ih hpeers hrest (fun n hmem => hlimit n (List.mem_cons_of_mem _ hmem))
        fun n hmem => hlimit' n (List.mem_cons_of_mem _ hmem)).imp id ?_
      rintro ⟨hpeers, hanswers, hsame, hsame'⟩
      refine ⟨hpeers, ?_, hsame.trans hbatch, hsame'.trans hbatch'⟩
      exact congrArg₂ (· :: ·) hanswer hanswers

/-- A batch is opened by a peer of the solver before. -/
theorem Working.step_openBatch (hs : s.Working config) (hbatch : s.batch = none) :
    (s.step .openBatch).1 = .ok .done ∧ Peers config s (s.step .openBatch).2 ∧
      (s.step .openBatch).2.batch ≠ none := by
  have hensures : Ensures (perform .openBatch) s
      (fun answer s' => answer = .done ∧ s'.poisoned = s.poisoned ∧ s'.state = s.state ∧
        s'.batch ≠ none) fun _ _ => False := by
    have hclosed : s.isBatching = false := by rw [isBatching, hbatch, Option.isSome_none]
    simp only [perform, openBatch, ensures_bind, ensures_get, hclosed, Bool.false_eq_true, if_false,
      ensures_set, ensures_pure]
    exact ⟨trivial, trivial, trivial, Option.some_ne_none _⟩
  have hsound : Ensures (perform .openBatch) s (fun _ s' => s'.Sound True True) fun _ _ => True :=
    ensures_bind _ |>.mpr ((ensures_openBatch_sound hs.sound).imp (fun _ _ h => h.2)
      fun _ _ _ => trivial)
  have hrest := (keeps_perform .openBatch).outcome hs.rest
  rcases (hensures.and hsound).outcome with
    ⟨_, hanswer, ⟨rfl, hpoisoned, hstate, hopen⟩, hsound⟩ | ⟨_, -, hfalse, -⟩
  · exact ⟨hanswer, ⟨hs, ⟨hrest, hsound, hpoisoned.trans hs.poisoned⟩,
      hstate ▸ State.Alike.refl s.state⟩, hopen⟩
  · exact hfalse.elim

/-- A batch is closed without a failure, unless the limit on pivots is hit. -/
theorem Working.step_closeBatch (hs : s.Working config) (hbatch : s.batch ≠ none)
    (hlimit : ∀ n, (s.step .closeBatch).1 ≠ .error (.iterationLimit n)) :
    (s.step .closeBatch).1 = .ok .done ∧ Peers config s (s.step .closeBatch).2 ∧
      (s.step .closeBatch).2.batch = none := by
  have hensures : Ensures (perform .closeBatch) s
      (fun answer s' => answer = .done ∧ s'.poisoned = s.poisoned ∧ s.state.Alike s'.state ∧
        s'.batch = none) fun cause _ => ∃ n, cause = .iterationLimit n := by
    have hsolve := Tableau.ensures_solve_limit hs.sound.state.tableau
      (hs.sound.state.bounded trivial)
    apply ensures_bind _ |>.mpr
    exact ensures_closeBatch_of (fun hnone => absurd hnone hbatch) fun b _ => hsolve.imp
      (fun _ _ h => ⟨rfl, rfl, ⟨rfl, rfl, rfl, h⟩, rfl⟩) fun _ _ h => ⟨fun _ _ => h, fun _ => h⟩
  have hsound : Ensures (perform .closeBatch) s (fun _ s' => s'.Sound True True) fun _ _ => True :=
    ensures_bind _ |>.mpr ((ensures_closeBatch_sound hs.sound).imp (fun _ _ h => h.2)
      fun _ _ _ => trivial)
  have hrest := (keeps_perform .closeBatch).outcome hs.rest
  rcases (hensures.and hsound).outcome with
    ⟨_, hanswer, ⟨rfl, hpoisoned, halike, hclosed⟩, hsound⟩ | ⟨_, hcause, ⟨n, rfl⟩, -⟩
  · exact ⟨hanswer, ⟨hs, ⟨hrest, hsound, hpoisoned.trans hs.poisoned⟩, halike⟩, hclosed⟩
  · exact absurd hcause (hlimit n)

theorem answers_batched (s : Solver Rat) (os : List (Operation Rat)) :
    s.answers (batched os) = (s.step .openBatch).1 :: ((s.step .openBatch).2.answers os ++
      [(((s.step .openBatch).2.run os).step .closeBatch).1]) :=
  congrArg ((s.step .openBatch).1 :: ·) (answers_append (s.step .openBatch).2 os [.closeBatch])

theorem run_batched (s : Solver Rat) (os : List (Operation Rat)) :
    s.run (batched os) = (((s.step .openBatch).2.run os).step .closeBatch).2 :=
  run_append (s.step .openBatch).2 os [.closeBatch]

/-- The solvers that insertions, in batches or not, lead to from one without constraints. -/
def Assembled (config : Config Rat) (s : Solver Rat) : Prop :=
  ∃ os : List (Operation Rat), (∀ o ∈ os, o.Lawful True ∧ o.inserts = true) ∧
    s = (ofConfig config).run os

/-- In exact arithmetic, an assembled solver works unless it is poisoned. -/
theorem Assembled.working (hs : s.Assembled config) (hepsilon : config.epsilon = 0)
    (hpoisoned : s.poisoned = false) : s.Working config := by
  obtain ⟨os, hos, rfl⟩ := hs
  have hsparing : (ofConfig config).Sparing os := by
    refine sparing_of_forall_ne (fun o ho h => ?_) _
    rintro rfl
    exact Bool.false_ne_true (hos _ ho).2
  exact ⟨Reachable.atRest ⟨os, rfl⟩,
    sound_run (fun _ => hepsilon) (fun o ho => (hos o ho).1) (fun _ _ => hsparing) hpoisoned,
    hpoisoned⟩

/-- What a batch around a list of insertions comes to, next to the list alone. -/
theorem Working.peers_batched (hs : s.Working config) (hbatch : s.batch = none)
    (hcs : ∀ e ∈ cs, e.1.OverLayout ∧ 0 ≤ e.2.value)
    (hlimit : ∀ n, .error (.iterationLimit n) ∉ s.answers (insertAll cs))
    (hlimit' : ∀ n, .error (.iterationLimit n) ∉ s.answers (batched (insertAll cs))) :
    (s.run (insertAll cs)).poisoned = true ∧ (s.run (batched (insertAll cs))).poisoned = true ∨
      Peers config (s.run (insertAll cs)) (s.run (batched (insertAll cs))) ∧
        s.answers (batched (insertAll cs)) =
          .ok .done :: (s.answers (insertAll cs) ++ [.ok .done]) ∧
        (s.run (insertAll cs)).batch = none ∧ (s.run (batched (insertAll cs))).batch = none := by
  obtain ⟨hopened, hpeers, hopen⟩ := hs.step_openBatch hbatch
  rw [answers_batched] at hlimit' ⊢
  rw [run_batched]
  have hinner : ∀ n, .error (.iterationLimit n) ∉
      (s.step .openBatch).2.answers (insertAll cs) := fun n hmem =>
    hlimit' n (List.mem_cons_of_mem _ (List.mem_append_left _ hmem))
  rcases hpeers.run_insertAll hcs hlimit hinner with
    ⟨hpoisoned, hpoisoned'⟩ | ⟨hpeers, hanswers, hsame, hsame'⟩
  · exact .inl ⟨hpoisoned, (keeps_poisoned (o := .closeBatch) nofun).outcome hpoisoned'⟩
  · obtain ⟨hclosed, hlast, hnone⟩ := hpeers.right.step_closeBatch (hsame'.trans_ne hopen)
      fun n heq => hlimit' n (List.mem_cons_of_mem _
        (List.mem_append_right _ (List.mem_singleton.mpr heq.symm)))
    refine .inr ⟨⟨hpeers.left, hlast.right, hpeers.alike.trans hlast.alike⟩, ?_,
      hsame.trans hbatch, hnone⟩
    rw [hopened, hanswers, hclosed]

/-- A batch with a required constraint that contradicts another one, next to some that do not. -/
def crowded : List (Constraint Rat × Strength Rat) :=
  [(.ofFormulas (.var (.external 0)) .lessOrEqual (.number 4), .required),
    ((Variable.external 0).heldAt 6, .weak),
    ((Variable.external 0).heldAt 5, .required),
    (.ofFormulas (.var (.external 1)) .equal (.var (.external 0)), .required),
    (.ofFormulas (.var (.external 1)) .greaterOrEqual (.number 3), .medium)]

theorem overLayout_crowded : ∀ e ∈ crowded, e.1.OverLayout ∧ 0 ≤ e.2.value := by
  have hweak : 0 ≤ (Strength.weak : Strength Rat).value := by decide +kernel
  have hmedium : 0 ≤ (Strength.medium : Strength Rat).value := by decide +kernel
  intro e he
  simp only [crowded, List.mem_cons, List.not_mem_nil, or_false] at he
  rcases he with rfl | rfl | rfl | rfl | rfl
  · exact ⟨Constraint.overLayout_reduce _ _ _, Strength.required_nonneg⟩
  · exact ⟨Variable.overLayout_heldAt _ _, hweak⟩
  · exact ⟨Variable.overLayout_heldAt _ _, Strength.required_nonneg⟩
  · exact ⟨Constraint.overLayout_reduce _ _ _, Strength.required_nonneg⟩
  · exact ⟨Constraint.overLayout_reduce _ _ _, hmedium⟩

/-- Whether an answer tells that the limit on pivots was hit. -/
def limited : Except SolverError Answer → Bool
  | .error (.iterationLimit _) => true
  | _ => false

theorem notMem_of_all_not_limited {answers : List (Except SolverError Answer)}
    (h : answers.all (!limited ·) = true) (n : Nat) : .error (.iterationLimit n) ∉ answers :=
  fun hmem => by simpa [limited] using List.all_eq_true.mp h _ hmem

end Solver

end Cassowary
