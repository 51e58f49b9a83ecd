import Cassowary.Proofs.Atomicity

/-!
# What the tableaux of a run have in common

A solver changes its tableau by a few operations, each of which it undoes where it fails, or else it
is poisoned. It may also go back to the tableau that a batch started from, or drop everything. So a
property that the empty tableau has, and that these operations keep where they succeed, is one of
all tableaux that a run leads to, unless the solver is poisoned. Insertions are left to the case,
since what they keep may depend on the constraint.

## Main definitions

* `Solver.Has` — a property of the tableau, and of the one that an open batch goes back to
* `Solver.Settled` — a property that solving keeps
* `Solver.Persistent` — a property that operations keep, insertions apart

## Main results

* `Solver.exists_tableau_of_inserted` — the tableau that an insertion leads to
* `Solver.Has.step_of` — a settled property after one operation
* `Solver.Has.step` — a persistent property after one operation
-/

namespace Cassowary

open Attempt

variable {α : Type} [Scalar α]

namespace Solver

variable {config : Config α} {s s' : Solver α} {P Q : Tableau α → Prop}

/-- Unless the solver is poisoned, its tableau has a property, and so has the tableau that an open
batch goes back to. -/
def Has (P : Tableau α → Prop) (s : Solver α) : Prop :=
  s.poisoned = false → P s.state.tableau ∧
    ∀ b state, s.batch = some b → b.snapshot = some state → P state.tableau

/-- A property of tableaux that an empty one has, and that solving keeps where it succeeds. What is
noted for undoing does not matter. -/
structure Settled (P : Tableau α → Prop) : Prop where
  empty : ∀ epsilon limit, P (.empty epsilon limit)
  begin : ∀ t, P t → P t.begin
  commit : ∀ t, P t → P t.commit
  solve : Upholds Tableau.solve P

/-- A property of tableaux that operations keep where they succeed, insertions apart. -/
structure Persistent (P : Tableau α → Prop) : Prop extends Settled P where
  removeConstraint : ∀ h w defer, Upholds (Tableau.removeConstraint h w defer) P
  suggest : ∀ h delta, Upholds (Tableau.suggest h delta) P

namespace Has

omit [Scalar α] in
theorem mono (hs : s.Has P) (h : ∀ t, P t → Q t) : s.Has Q := fun hpoisoned =>
  ⟨h _ (hs hpoisoned).1, fun b state hb hstate => h _ ((hs hpoisoned).2 b state hb hstate)⟩

omit [Scalar α] in
theorem of_eq (hs : s.Has P) (htableau : s'.state.tableau = s.state.tableau)
    (hbatch : s'.batch = s.batch) (hpoisoned : s'.poisoned = s.poisoned) : s'.Has P := by
  unfold Has at hs ⊢
  rwa [htableau, hbatch, hpoisoned]

omit [Scalar α] in
theorem of_failed (hs : s.Has P) (hfailed : s.Failed s') : s'.Has P := by
  rcases hfailed with htrue | ⟨n, rfl⟩
  · intro hpoisoned
    rw [htrue] at hpoisoned
    cases hpoisoned
  · exact hs

omit [Scalar α] in
theorem opening (hs : s.Has P) (hP : ∀ t, P t → P t.begin) (hpoisoned : s.poisoned = false) :
    P s.opening := by
  unfold Solver.opening
  split
  · exact hP _ (hs hpoisoned).1
  · exact (hs hpoisoned).1

end Has

omit [Scalar α] in
theorem AtRest.epsilon_opening (hrest : s.AtRest config) : s.opening.epsilon = config.epsilon := by
  rcases s.opening_cases with heq | heq <;> rw [heq] <;> exact hrest.tableau.epsilon

omit [Scalar α] in
theorem AtRest.artificial_opening (hrest : s.AtRest config) : s.opening.artificial = none := by
  rcases s.opening_cases with heq | heq <;> rw [heq] <;> exact hrest.tableau.artificial

/-- An operation on the tableau that upholds a property, and is undone where it fails. -/
theorem Settled.ensures_guarded (hP : Settled P) {β : Type}
    {operation : Attempt (Tableau α) β} (hkeeps : ∀ t₀, Keeps operation (Tableau.RecoversTo · t₀))
    (hrest : s.AtRest config) (hs : s.Has P)
    (hoperation : s.poisoned = false → P s.opening →
      Ensures operation s.opening (fun _ => P) fun _ _ => True) :
    Ensures (guarded operation) s (fun _ s' => s'.Has P) fun _ s' => s'.Has P := by
  cases hpoisoned : s.poisoned with
  | true =>
    have hany : Ensures operation s.opening (fun _ _ => True) fun _ _ => True :=
      ensures_self.imp (fun _ _ _ => trivial) fun _ _ _ => trivial
    refine (ensures_guarded_opening hkeeps hrest hany).imp ?_ fun _ s' h => hs.of_failed h.2
    rintro _ _ ⟨t, -, rfl⟩ hfalse
    exact absurd (hpoisoned.symm.trans hfalse) nofun
  | false =>
    refine (ensures_guarded_opening hkeeps hrest
      (hoperation hpoisoned (hs.opening hP.begin hpoisoned))).imp ?_ fun _ s' h => hs.of_failed h.2
    rintro _ _ ⟨t, ht, rfl⟩ -
    exact ⟨hP.commit t ht, (hs hpoisoned).2⟩

/-- What an insertion into the tableau ensures, an insertion into the solver ensures of its
tableau. -/
theorem ensures_insert_tableau {c : Constraint α} {w : Strength α} (hrest : s.AtRest config)
    (hinsert : Ensures (Tableau.addConstraint c w s.isBatching) s.opening (fun _ => P)
      fun _ _ => True) :
    Ensures (insert c w) s (fun _ s' => ∃ t, P t ∧ s'.state.tableau = t.commit)
      fun _ _ => True := by
  refine ensures_insert_of ((ensures_guarded_opening (fun _ => Tableau.keeps_addConstraint c w _)
    hrest hinsert).imp ?_ fun _ _ _ => trivial)
  rintro _ _ ⟨t, ht, rfl⟩
  exact ⟨t, ht, rfl⟩

/-- An insertion that is answered by a handle leaves a tableau of which holds what the insertion
into the tableau ensures, with the settings of the configuration. -/
theorem exists_tableau_of_inserted {c : Constraint α} {w : Strength α} {h : Handle}
    (hrest : s.AtRest config) (hstep : s.step (.insert c w) = (.ok (.inserted h), s'))
    (hinsert : Ensures (Tableau.addConstraint c w s.isBatching) s.opening (fun _ => P)
      fun _ _ => True) :
    ∃ t, P t ∧ t.epsilon = config.epsilon ∧ s'.state.tableau = t.commit := by
  have hperform : Ensures (perform (.insert c w)) s
      (fun _ s' => s'.AtRest config ∧ ∃ t, P t ∧ s'.state.tableau = t.commit) fun _ _ => True :=
    ((keeps_perform _ s hrest).and (ensures_map _ |>.mpr (ensures_insert_tableau hrest hinsert))).imp
      (fun _ _ => id) fun _ _ _ => trivial
  have houtcome := hperform.outcome
  rw [step] at hstep
  rw [hstep] at houtcome
  rcases houtcome with ⟨_, -, hrest', t, ht, heq⟩ | ⟨_, hcause, -⟩
  · have hepsilon : t.epsilon = s'.state.tableau.epsilon := by rw [heq]; rfl
    exact ⟨t, ht, hepsilon.trans hrest'.tableau.epsilon, heq⟩
  · cases hcause

namespace Has

omit [Scalar α] in
/-- A batch that is opened goes back to a tableau that has the property. -/
theorem ensures_openBatch (hs : s.Has P) :
    Ensures openBatch s (fun _ s' => s'.Has P) fun _ s' => s'.Has P := by
  refine ensures_openBatch_of (fun _ => hs) fun _ b hb hpoisoned => ⟨(hs hpoisoned).1, ?_⟩
  rintro _ state ⟨⟩ hsnapshot
  rw [hb state hsnapshot]
  exact (hs hpoisoned).1

/-- Closing a batch keeps the property, whether it succeeds or goes back to the tableau that it was
opened with. -/
theorem ensures_closeBatch (hP : Settled P) (hs : s.Has P) :
    Ensures closeBatch s (fun _ s' => s'.Has P) fun _ s' => s'.Has P := by
  have hsolve : Ensures Tableau.solve s.state.tableau (fun _ t => s.poisoned = false → P t)
      fun _ _ => True := by
    cases hpoisoned : s.poisoned with
    | true => exact ensures_self.imp (fun _ _ _ => nofun) fun _ _ _ => trivial
    | false => exact (hP.solve _ (hs hpoisoned).1).imp (fun _ _ ht _ => ht) fun _ _ => id
  exact ensures_closeBatch_of (fun _ => hs) fun b hb => hsolve.imp
    (fun _ t ht hpoisoned => ⟨ht hpoisoned, fun _ _ => nofun⟩) fun _ _ _ =>
      ⟨fun state hsnapshot hpoisoned =>
        ⟨(hs hpoisoned).2 b state hb hsnapshot, fun _ _ => nofun⟩, fun _ => nofun⟩

section Settled

variable (hP : Settled P) (hrest : s.AtRest config) (hs : s.Has P)
include hP hrest hs

theorem ensures_insert {c : Constraint α} {w : Strength α}
    (hinsert : s.poisoned = false → P s.opening →
      Ensures (Tableau.addConstraint c w s.isBatching) s.opening (fun _ => P) fun _ _ => True) :
    Ensures (insert c w) s (fun _ s' => s'.Has P) fun _ s' => s'.Has P := by
  exact ensures_insert_of ((hP.ensures_guarded (fun _ => Tableau.keeps_addConstraint c w _) hrest
    hs hinsert).imp (fun _ s' hs' => hs'.of_eq rfl rfl rfl) fun _ _ => id)

theorem ensures_remove {h : Handle}
    (hremove : ∀ r, s.state.constraints.get? h = some r → s.poisoned = false → P s.opening →
      Ensures (Tableau.removeConstraint h r.strength s.isBatching) s.opening (fun _ => P)
        fun _ _ => True) :
    Ensures (remove h) s (fun _ s' => s'.Has P) fun _ s' => s'.Has P := by
  refine ensures_remove_of (fun _ => hs) fun r hr => (hP.ensures_guarded
    (fun _ => Tableau.keeps_removeConstraint h r.strength s.isBatching) hrest hs
      (hremove r hr)).imp (fun _ s' hs' => hs'.of_eq ?_ rfl rfl) fun _ _ => id
  dsimp only [State.unregister]
  split <;> rfl

/-- An operation keeps a settled property, if what it does to the tableau does. -/
theorem step_of {o : Operation α}
    (hinsert : ∀ c w, o.added s = some (c, w) → s.poisoned = false → P s.opening →
      Ensures (Tableau.addConstraint c w s.isBatching) s.opening (fun _ => P) fun _ _ => True)
    (hremove : ∀ h r, o.removes s = some h → s.state.constraints.get? h = some r →
      s.poisoned = false → P s.opening →
      Ensures (Tableau.removeConstraint h r.strength s.isBatching) s.opening (fun _ => P)
        fun _ _ => True)
    (hsuggest : ∀ h delta, o.moves s = some h → s.poisoned = false → P s.opening →
      Ensures (Tableau.suggest h delta) s.opening (fun _ => P) fun _ _ => True) :
    (s.step o).2.Has P := by
  have hensures : Ensures (perform o) s (fun _ s' => s'.Has P) fun _ s' => s'.Has P := by
    cases hsingle : o.single with
    | true =>
      exact ensures_perform_single hsingle hs
        (fun _ _ hs => hs.of_eq rfl rfl rfl)
        (fun c w hadded => hs.ensures_insert hP hrest (hinsert c w hadded))
        (fun h hremoves => hs.ensures_remove hP hrest fun r => hremove h r hremoves)
        fun h delta hmoves => hP.ensures_guarded (fun _ => Tableau.keeps_suggest h delta) hrest hs
          (hsuggest h delta hmoves)
    | false =>
      cases o with
      | openBatch => exact ensures_bind _ |>.mpr (ensures_openBatch hs)
      | closeBatch => exact ensures_bind _ |>.mpr (ensures_closeBatch hP hs)
      | clear => exact fun _ => ⟨hP.empty _ _, fun _ _ hopen => by cases hopen⟩
      | _ => cases hsingle
  exact hensures.after

end Settled

/-- Every operation keeps a persistent property, if its insertion upholds it. -/
theorem step (hP : Persistent P) (hrest : s.AtRest config) (hs : s.Has P) {o : Operation α}
    (hinsert : ∀ c w, o.added s = some (c, w) → P s.opening →
      Ensures (Tableau.addConstraint c w s.isBatching) s.opening (fun _ => P) fun _ _ => True) :
    (s.step o).2.Has P :=
  hs.step_of hP.toSettled hrest (fun c w hadded _ => hinsert c w hadded)
    (fun h r _ _ _ => hP.removeConstraint h r.strength _ _) fun h delta _ _ => hP.suggest h delta _

end Has

end Solver

end Cassowary
