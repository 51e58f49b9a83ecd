import Cassowary.Proofs.Registries

/-!
# A handle that has gone stays gone

The handle of a constraint that has been removed, dropped or undone names nothing any more: the
solver does not hold it, and to remove it does nothing. This is so at every later point of a run,
with two exceptions that come from going back. A batch that fails at its end holds again what it
held at its start. And handles are numbered, so that dropping everything, or going back to the start
of a batch, lets a later constraint have the number of one that has gone.

## Main definitions

* `Solver.Revives` — an operation brings a handle back

## Main results

* `Solver.Posting.issued_of_holds` — otherwise only a handle that is given out comes to be held
* `Solver.run_forgets` — a handle that has gone, after any further operations
* `Solver.run_forgets_of_steady` — nothing comes back as long as nothing is rewound
* `Solver.run_reissues` — the two exceptions
-/

namespace Cassowary

namespace Solver

open Attempt

variable {α : Type} [Scalar α] {config : Config α} {s s' : Solver α} {h : Handle}
  {o : Operation α} {pre post : List (Operation α)}

/-- To remove what is not held does nothing. -/
theorem step_remove_of_not_holds (hgone : s.holds h = false) :
    s.step (.remove h) = (.ok (.removed false), s) := by
  have hnone : s.state.constraints.get? h = none := by
    rwa [holds, Table.contains, Option.isSome_eq_false_iff, Option.isNone_iff_eq_none] at hgone
  have hremove : remove h s = .ok false s := by rw [remove, hnone]
  rw [step, perform, outcome_map, outcome, hremove]
  rfl

omit [Scalar α] in
theorem Retains.holds (hs' : s.Retains s') (h : Handle) : s'.holds h = s.holds h := by
  rw [Solver.holds, Solver.holds, hs'.constraints]

/-- Unless the index is rewound, what was not held and is held now has just been given out. -/
theorem Posting.issued_of_holds {issued : Option Handle} (hposting : s.Posting issued false s')
    (hgone : s.holds h = false) (hheld : s'.holds h = true) : issued = some h := by
  cases hposting with
  | kept hs' => rw [hs'.holds, hgone] at hheld; cases hheld
  | @entered s₁ h' c w edits hs₁ =>
    rw [← hs₁.holds] at hgone
    by_cases hne : h = h'
    · rw [hne]
    · have hsame : (s₁.state.register h' ⟨c, w⟩).constraints.get? h = s₁.state.constraints.get? h :=
        (State.get?_register _ _ _ _).trans (if_neg hne)
      rw [Solver.holds, Table.contains] at hgone hheld
      rw [hsame, hgone] at hheld
      cases hheld
  | @struck s₁ h' r edits hs₁ hr =>
    rw [← hs₁.holds, Solver.holds, Table.contains] at hgone
    have hsub : (s₁.state.unregister h').constraints.contains h = true := hheld
    rw [Table.contains, State.get?_unregister hr] at hsub
    split at hsub
    · cases hsub
    · rw [hgone] at hsub
      cases hsub

/-- After the operations of a run, one brings a handle back: it goes back to a state that holds it,
or the run has rewound the index and the operation gives the handle out again. -/
def Revives (s : Solver α) (h : Handle) (past : List (Operation α)) (o : Operation α) : Prop :=
  (s.run past).rewinds o = true ∧ ((s.run past).step o).2.holds h = true ∨
    ¬ s.Steady past ∧ (s.run past).issued o = some h

theorem steady_append {os os' : List (Operation α)} :
    s.Steady (os ++ os') ↔ s.Steady os ∧ (s.run os).Steady os' := by
  induction os generalizing s with
  | nil => exact (and_iff_right trivial).symm
  | cons o os ih => exact (and_congr_right fun _ => ih).trans and_assoc.symm

/-- A run that rewinds nothing does not bring anything back. -/
theorem not_revives_of_steady {past : List (Operation α)} (hsteady : s.Steady (past ++ [o])) :
    ¬ s.Revives h past o := by
  obtain ⟨hpast, hrewinds, -⟩ := steady_append.mp hsteady
  rintro (⟨hback, -⟩ | ⟨hnot, -⟩)
  · rw [hrewinds] at hback
    cases hback
  · exact hnot hpast

/-- A handle that is not held is not held later, if nothing brings it back. As long as nothing is
rewound, its symbols lie below the index and are not given out again. -/
theorem Orderly.not_holds_run (hs : s.Orderly config) (hos : ∀ o' ∈ o :: post, o'.Reduced)
    (hheld : s.holds h = true) (hgone : (s.run [o]).holds h = false)
    (hnever : ∀ mid o' rest, post = mid ++ o' :: rest → ¬ s.Revives h (o :: mid) o') :
    (s.run (o :: post)).holds h = false ∧ (s.Steady (o :: post) →
      h.marker.index.toNat < (s.run (o :: post)).state.tableau.nextId) := by
  induction post using List.reverseRecOn with
  | nil =>
    refine ⟨hgone, fun hsteady => ?_⟩
    have hposting := hs.posting (hos o List.mem_cons_self)
    rw [hsteady.1] at hposting
    obtain ⟨r, hr⟩ := Option.isSome_iff_exists.mp hheld
    exact (hs.balanced.state.given h r hr _ List.mem_cons_self).trans_le hposting.between.1
  | append_singleton post o' ih =>
    have hmem : ∀ o'' ∈ o :: post, o''.Reduced := fun o'' hmem =>
      hos o'' (by rw [← List.cons_append]; exact List.mem_append_left _ hmem)
    obtain ⟨hnot, hlt⟩ := ih hmem fun mid o'' rest heq =>
      hnever mid o'' (rest ++ [o']) (by rw [heq, List.append_assoc]; rfl)
    have hlast := hnever post o' [] rfl
    have hposting := (hs.run hmem).posting (hos o' (by simp))
    have hrun : s.run (o :: (post ++ [o'])) = ((s.run (o :: post)).step o').2 := by
      rw [← List.cons_append, run_append]
      rfl
    rw [hrun, ← List.cons_append, steady_append]
    cases hrewinds : (s.run (o :: post)).rewinds o' with
    | true =>
      refine ⟨Bool.eq_false_iff.mpr fun hback => hlast (.inl ⟨hrewinds, hback⟩), fun hsteady => ?_⟩
      rw [hsteady.2.1] at hrewinds
      cases hrewinds
    | false =>
      rw [hrewinds] at hposting
      obtain ⟨hid, hbetween⟩ := hposting.between
      refine ⟨Bool.eq_false_iff.mpr fun hback => ?_, fun hsteady => (hlt hsteady.1).trans_le hid⟩
      have hissued := hposting.issued_of_holds hnot hback
      -- What is given out lies above the index, and the old symbols lie below it
      by_cases hsteady : s.Steady (o :: post)
      · exact absurd (hlt hsteady)
          (not_lt.mpr ((hbetween h hissued).fresh.le _ List.mem_cons_self))
      · exact hlast (.inr ⟨hsteady, hissued⟩)

/-- Whatever the arithmetic and the configuration are, once a constraint that was held has gone, by
a removal, with everything else or because a batch failed at its end, its handle is not held at any
later point of the run, and to remove it does nothing. Only two things bring it back: a batch that
fails at its end and goes back to a state that holds it, and, where an index has been rewound since
it went, an insertion that gets the same handle. -/
theorem run_forgets (hos : ∀ o' ∈ pre ++ o :: post, o'.Reduced)
    (hheld : ((ofConfig config).run pre).holds h = true)
    (hgone : ((ofConfig config).run (pre ++ [o])).holds h = false)
    (hnever : ∀ mid o' rest, post = mid ++ o' :: rest →
      ¬ ((ofConfig config).run pre).Revives h (o :: mid) o') :
    ((ofConfig config).run (pre ++ o :: post)).holds h = false ∧
      ((ofConfig config).run (pre ++ o :: post)).step (.remove h) =
        (.ok (.removed false), (ofConfig config).run (pre ++ o :: post)) := by
  have hs := (orderly_ofConfig config).run fun o' ho' => hos o' (List.mem_append_left _ ho')
  rw [run_append] at hgone
  have hnot := hs.not_holds_run (fun o' ho' => hos o' (List.mem_append_right _ ho')) hheld hgone
    hnever
  rw [← run_append] at hnot
  exact ⟨hnot.1, step_remove_of_not_holds hnot.1⟩

/-- A handle that has gone stays gone in a steady run: one in which nothing is cleared and no batch
goes back. -/
theorem run_forgets_of_steady (hos : ∀ o' ∈ pre ++ o :: post, o'.Reduced)
    (hheld : ((ofConfig config).run pre).holds h = true)
    (hgone : ((ofConfig config).run (pre ++ [o])).holds h = false)
    (hsteady : ((ofConfig config).run pre).Steady (o :: post)) :
    ((ofConfig config).run (pre ++ o :: post)).holds h = false := by
  have hs := (orderly_ofConfig config).run fun o' ho' => hos o' (List.mem_append_left _ ho')
  rw [run_append] at hgone ⊢
  refine (hs.not_holds_run (fun o' ho' => hos o' (List.mem_append_right _ ho')) hheld hgone
    fun mid o' rest heq => ?_).1
  have hsplit : o :: post = (o :: mid ++ [o']) ++ rest := by rw [heq]; simp
  rw [hsplit] at hsteady
  exact not_revives_of_steady (steady_append.mp hsteady).1

/-- The handle of a required equality whose dummy has an index. -/
def dummyAt (index : Nat) : Handle := ⟨.ofIndex .dummy false index, none⟩

/-- A variable held to a value. -/
def fixing (x : Nat) (value : Rat) (w : Strength Rat) : Operation Rat :=
  .insert ((Variable.external x).heldAt value) w

theorem reduced_fixing (x : Nat) (value : Rat) (w : Strength Rat) : (fixing x value w).Reduced :=
  ⟨(Formula.var (.external x)).linear, .equal, (Formula.number value).linear, rfl⟩

/-- Of two constraints that are dropped, the number of the first is given out again, and the second
is not held. -/
theorem run_forgets_second :
    ((ofConfig ⟨0, true, 100⟩).run [fixing 0 1 .required, fixing 1 2 .required]).holds (dummyAt 1) =
      true ∧
    ((ofConfig ⟨0, true, 100⟩).run ([fixing 0 1 .required, fixing 1 2 .required] ++
      [.clear, fixing 0 3 .required])).step (.remove (dummyAt 1)) =
        (.ok (.removed false), (ofConfig ⟨0, true, 100⟩).run
          ([fixing 0 1 .required, fixing 1 2 .required] ++ [.clear, fixing 0 3 .required])) := by
  have hheld : ((ofConfig ⟨0, true, 100⟩).run [fixing 0 1 .required, fixing 1 2 .required]).holds
      (dummyAt 1) = true := by decide +kernel
  have hreduced : ∀ o ∈ [fixing 0 1 .required, fixing 1 2 .required] ++
      [.clear, fixing 0 3 .required], o.Reduced := by
    intro o ho
    simp only [List.cons_append, List.nil_append, List.mem_cons, List.not_mem_nil, or_false] at ho
    rcases ho with rfl | rfl | rfl | rfl
    exacts [reduced_fixing _ _ _, reduced_fixing _ _ _, trivial, reduced_fixing _ _ _]
  refine ⟨hheld, (@run_forgets Rat _ ⟨0, true, 100⟩ (dummyAt 1) .clear _ _ hreduced hheld
    (by decide +kernel) fun mid o' rest heq => ?_).2⟩
  obtain ⟨rfl, rfl, rfl⟩ : mid = [] ∧ o' = fixing 0 3 .required ∧ rest = [] := by
    rcases mid with _ | ⟨_, _ | ⟨_, _⟩⟩
    · cases heq
      exact ⟨rfl, rfl, rfl⟩
    · cases heq
    · cases heq
  rintro (⟨hrewinds, -⟩ | ⟨-, hissued⟩)
  · revert hrewinds
    decide +kernel
  · revert hissued
    decide +kernel

/-- After clearing, the handle of the first constraint names the next one, and removes it. After a
batch that cannot be closed within the limit, the handle of a constraint that was removed in it is
held again. -/
theorem run_reissues :
    (((ofConfig ⟨0, true, 100⟩).run [fixing 0 1 .required]).holds (dummyAt 0) = true ∧
      ((ofConfig ⟨0, true, 100⟩).run [fixing 0 1 .required, .clear]).holds (dummyAt 0) = false ∧
      ((ofConfig ⟨0, true, 100⟩).run [fixing 0 1 .required, .clear, fixing 0 2 .required]).holds
        (dummyAt 0) = true ∧
      (((ofConfig ⟨0, true, 100⟩).run
        [fixing 0 1 .required, .clear, fixing 0 2 .required]).step (.remove (dummyAt 0))).1 =
          .ok (.removed true)) ∧
    (((ofConfig ⟨0, true, 0⟩).run [fixing 0 1 .required, .openBatch]).step
        (.remove (dummyAt 0))).1 = .ok (.removed true) ∧
      ((ofConfig ⟨0, true, 0⟩).run [fixing 0 1 .required, .openBatch, .remove (dummyAt 0)]).holds
        (dummyAt 0) = false ∧
      ((ofConfig ⟨0, true, 0⟩).run [fixing 0 1 .required, .openBatch, .remove (dummyAt 0),
        fixing 1 5 .weak, fixing 1 7 .strong, .closeBatch]).holds (dummyAt 0) = true := by
  decide +kernel

end Solver

end Cassowary
