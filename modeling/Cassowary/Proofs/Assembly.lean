import Cassowary.Columns
import Cassowary.Proofs.Rebuilding

/-!
# Constraints inserted until one fails

The columns are arranged by inserting a list of constraints in a batch. The list is gone through
until an insertion fails; then the batch is closed all the same, and if that fails as well, its
failure is the one that is told.

This module splits an arrangement into steps of a run, so that what is known of steps and runs can
be used. As long as insertions succeed, what is held grows by what was inserted, and symbols are
given out as the constraints need them.

## Main definitions

* `Solver.told` — what is told in the end
* `Columns.dragged` — the first width, dragged
* `Solver.Takes` — a solver after it has taken in a list of constraints

## Main results

* `Solver.Working.insertAll_cases` — a list is taken in, or it fails at some constraint
* `Columns.solve_eq` — an arrangement as steps
-/

namespace Cassowary

namespace Attempt

variable {σ β γ : Type}

theorem outcome_pure (b : β) (s : σ) : (pure b : Attempt σ β).outcome s = (.ok b, s) := rfl

theorem outcome_bind (action : Attempt σ β) (f : β → Attempt σ γ) (s : σ) :
    (action >>= f).outcome s = match action.outcome s with
      | (.ok b, s') => (f b).outcome s'
      | (.error cause, s') => (.error cause, s') := by
  simp only [outcome, bind, EStateM.bind]
  cases action s <;> rfl

end Attempt

open Attempt

namespace Solver

variable {α : Type} [Scalar α] {cause : SolverError}

/-- What is told in the end of a list of insertions and of closing the batch after them. If closing
it fails, that is told. -/
def told (filled : Except SolverError Unit × Solver α) : Except SolverError Unit := do
  discard (filled.2.step .closeBatch).1
  filled.1

theorem told_of_error {filled : Except SolverError Unit × Solver α}
    (hclosed : (filled.2.step .closeBatch).1 = .error cause) : told filled = .error cause := by
  rw [told, hclosed]
  rfl

theorem told_of_ok {filled : Except SolverError Unit × Solver α}
    (hclosed : (filled.2.step .closeBatch).1 = .ok .done) : told filled = filled.1 := by
  rw [told, hclosed]
  rfl

end Solver

namespace Columns

variable {α : Type} [Scalar α] {s s' : Solver α} {e : Constraint α × Strength α}
  {cs : List (Constraint α × Strength α)}

theorem outcome_insertAll_nil (s : Solver α) : (insertAll []).outcome s = (.ok (), s) := rfl

/-- A list is gone through until an insertion fails. -/
theorem outcome_insertAll_cons (e : Constraint α × Strength α)
    (cs : List (Constraint α × Strength α)) (s : Solver α) :
    (insertAll (e :: cs)).outcome s = match s.step (.insert e.1 e.2) with
      | (.ok _, s') => (insertAll cs).outcome s'
      | (.error cause, s') => (.error cause, s') := by
  have hstep : s.step (.insert e.1 e.2) =
      (((Solver.insert e.1 e.2).outcome s).1.map .inserted, ((Solver.insert e.1 e.2).outcome s).2) :=
    outcome_map _ _ s
  have hsplit : (insertAll (e :: cs)).outcome s =
      (discard (Solver.insert e.1 e.2) >>= fun _ => insertAll cs).outcome s := rfl
  have hdiscard : (discard (Solver.insert e.1 e.2)).outcome s =
      (((Solver.insert e.1 e.2).outcome s).1.map fun _ => ⟨⟩,
        ((Solver.insert e.1 e.2).outcome s).2) := outcome_map _ _ s
  rw [hsplit, outcome_bind, hdiscard, hstep]
  cases (Solver.insert e.1 e.2).outcome s with
  | mk answer s' => cases answer <;> rfl

theorem outcome_insertAll_append (cs cs' : List (Constraint α × Strength α)) (s : Solver α) :
    (insertAll (cs ++ cs')).outcome s = match (insertAll cs).outcome s with
      | (.ok _, s') => (insertAll cs').outcome s'
      | (.error cause, s') => (.error cause, s') := by
  induction cs generalizing s with
  | nil => rw [List.nil_append, outcome_insertAll_nil]
  | cons e cs ih =>
    rw [List.cons_append, outcome_insertAll_cons, outcome_insertAll_cons]
    rcases s.step (.insert e.1 e.2) with ⟨_ | _, s'⟩
    · rfl
    · exact ih s'

/-- The first width is dragged in two steps. -/
def dragged (s : Solver α) (target : α) : Except SolverError (Solver α) := do
  let edited := s.step (.startEdit (width 0) .strong)
  discard edited.1
  let moved := edited.2.step (.suggest (width 0) target)
  discard moved.1
  pure moved.2

/-- An arrangement as steps: a batch is opened, filled as far as that goes and closed, and then the
first width is dragged. -/
theorem solve_eq (c : Columns α) (config : Config α) :
    c.solve config = (do
      let opened := (Solver.ofConfig config).step .openBatch
      discard opened.1
      let filled := (insertAll c.requirements).outcome opened.2
      Solver.told filled
      let closed := filled.2.step .closeBatch
      match c.drag with
      | none => pure closed.2
      | some target => dragged closed.2 target) := by
  have hperform : ∀ (o : Operation α) (action : Attempt (Solver α) Unit),
      Solver.perform o = (do action; pure .done) → ∀ s, s.step o =
        ((action.outcome s).1.map fun _ => .done, (action.outcome s).2) := by
    intro o action ho s
    rw [Solver.step, ho, outcome_bind]
    cases action.outcome s with
    | mk answer s' => cases answer <;> rfl
  have hfill : ∀ (body : Solver α → Except SolverError Unit × Solver α) (s : Solver α),
      (modifyGet body : Attempt (Solver α) _).outcome s = (.ok (body s).1, (body s).2) :=
    fun _ _ => rfl
  unfold solve arrange Solver.inBatch Solver.told dragged
  simp only [outcome_bind, hfill, hperform .openBatch _ rfl, hperform .closeBatch _ rfl,
    hperform (.startEdit _ _) _ rfl, hperform (.suggest _ _) _ rfl]
  rcases (Solver.openBatch (α := α)).outcome (.ofConfig config) with ⟨_ | _, opened⟩
  · rfl
  dsimp only
  rcases (insertAll c.requirements).outcome opened with ⟨answer, filled⟩
  dsimp only
  rcases Solver.closeBatch.outcome filled with ⟨_ | _, closed⟩
  · rfl
  rcases answer with _ | _
  · rfl
  rcases c.drag with _ | target
  · rfl
  simp only [outcome_pure, outcome_bind]
  rcases (Solver.startEdit (width 0) .strong).outcome closed with ⟨_ | _, edited⟩
  · rfl
  dsimp only
  rcases (Solver.suggest (width 0) target).outcome edited with ⟨_ | _, moved⟩
  · rfl
  · rfl

end Columns

namespace Solver

open Columns (insertAll)

variable {s s' s'' : Solver Rat} {config : Config Rat} {c : Constraint Rat} {w : Strength Rat}
  {cs cs' : List (Constraint Rat × Strength Rat)}

/-- How many symbols constraints have. -/
def symbolCount (cs : List (Constraint Rat × Strength Rat)) : Nat :=
  ((cs.map fun e => e.1.shape e.2).map Shape.symbols).sum

theorem symbolCount_append (cs cs' : List (Constraint Rat × Strength Rat)) :
    symbolCount (cs ++ cs') = symbolCount cs + symbolCount cs' := by
  rw [symbolCount, List.map_append, List.map_append, List.sum_append]
  rfl

/-- More constraints need no fewer symbols. -/
theorem symbolCount_le_of_prefix (h : cs <+: cs') : symbolCount cs ≤ symbolCount cs' := by
  obtain ⟨rest, rfl⟩ := h
  rw [symbolCount_append]
  exact Nat.le_add_right _ _

/-- The solver `s'` comes from `s` by taking in a list of constraints, under symbols of their own
and no others. -/
structure Takes (config : Config Rat) (s : Solver Rat) (cs : List (Constraint Rat × Strength Rat))
    (s' : Solver Rat) : Prop where
  working : s'.Working config
  batch : s'.batch = s.batch
  held : s'.state.held = s.state.held ++ cs
  edits : s'.state.edits = s.state.edits
  nextId : s'.state.tableau.nextId = s.state.tableau.nextId + symbolCount cs
  room : s.state.tableau.nextId ≤ Key.maxIndex + 1 → s'.state.tableau.nextId ≤ Key.maxIndex + 1
  run : s' = s.run (Operation.insertAll cs)

namespace Takes

theorem refl (hs : s.Working config) : s.Takes config [] s :=
  ⟨hs, rfl, (List.append_nil _).symm, rfl, rfl, id, rfl⟩

theorem trans (h : s.Takes config cs s') (h' : s'.Takes config cs' s'') :
    s.Takes config (cs ++ cs') s'' where
  working := h'.working
  batch := h'.batch.trans h.batch
  held := by rw [h'.held, h.held, List.append_assoc]
  edits := h'.edits.trans h.edits
  nextId := by rw [h'.nextId, h.nextId, symbolCount_append, Nat.add_assoc]
  room hid := h'.room (h.room hid)
  run := by rw [h'.run, h.run, Operation.insertAll_append, run_append]

/-- A solver that takes in constraints has their shapes beside those of what it held. -/
theorem shapes_eq (h : s.Takes config cs s') (hs : s.Working config) :
    s'.state.shapes = s.state.shapes ++ cs.map fun e => e.1.shape e.2 := by
  rw [← h.working.sound.state.tidy.shapes_held, h.held, List.map_append,
    hs.sound.state.tidy.shapes_held]

/-- The required constraints that have been taken in can all be met. -/
theorem exists_holds (h : s.Takes config cs s') :
    ∃ v, ∀ e ∈ cs, e.2.isRequired = true → e.1.Holds v := by
  have hfeasible := h.working.sound.state.feasible_basicSolution trivial trivial
  exact ⟨_, fun e he => hfeasible e (h.held ▸ List.mem_append_right _ he)⟩

end Takes

/-- A constraint that is answered by its verdict has been given its own symbols, if it asks for no
artificial variable. -/
theorem Working.nextId_of_verdict (hs : s.Working config) (hc : c.OverLayout) {h : Handle} {n : Nat}
    (hdemand : Shape.demand s.state.shapes (c.shape w) = (c.shape w).symbols)
    (hverdict : s.state.verdict c w = .ok (h, n)) :
    n = s.state.tableau.nextId + (c.shape w).symbols ∧ n ≤ Key.maxIndex + 1 := by
  have hreserve := State.reserve_of_verdict hverdict
  rcases hs.sound.state.tidy.reserve_cases hc w s.state.tableau.nextId with
    ⟨hroom, h', heq⟩ | ⟨-, i, heq⟩
  · rw [hdemand] at hroom heq
    rw [hreserve] at heq
    injection heq with heq
    have hn : n = s.state.tableau.nextId + (c.shape w).symbols := congrArg Prod.snd heq
    exact ⟨hn, hn ▸ hroom⟩
  · cases hreserve.symm.trans heq

/-- One constraint is taken in, unless it fails for the limit on pivots or by its verdict. -/
theorem Working.takes_or (hs : s.Working config) (hc : c.OverLayout) (hw : 0 ≤ w.value)
    (hdemand : Shape.demand s.state.shapes (c.shape w) = (c.shape w).symbols) :
    (∃ h s', s.step (.insert c w) = (.ok (.inserted h), s') ∧ s.Takes config [(c, w)] s') ∨
    ∃ cause s', s.step (.insert c w) = (.error cause, s') ∧
      ((∃ n, cause = .iterationLimit n) ∨ s.state.verdict c w = .error cause) := by
  rcases hs.step_insert_cases hc hw with
    ⟨h, hanswer, hworking, hbatch, hverdict, hnew, t, ht⟩ | ⟨cause, hcause, hwhy, -⟩
  · obtain ⟨hid, hroom⟩ := hs.nextId_of_verdict hc hdemand hverdict
    refine .inl ⟨h, _, Prod.ext hanswer rfl, hworking, hbatch, ?_, ?_, ?_, fun _ => hroom, rfl⟩
    · have hbooks : ({ s.state with tableau := t } : State Rat).Tidy :=
        hs.sound.state.tidy.of_eq rfl rfl
      rw [ht]
      exact hbooks.held_register hnew
    · rw [ht]
      rfl
    · rw [hid]
      simp [symbolCount]
  · exact .inr ⟨cause, _, Prod.ext hcause rfl, hwhy⟩

/-- A list of constraints among which required equalities come first is taken in, or one of them
fails when those before it have been taken in. -/
theorem Working.insertAll_cases (hs : s.Working config)
    (hcs : ∀ e ∈ cs, e.1.OverLayout ∧ 0 ≤ e.2.value)
    (hfirst : (s.state.shapes ++ cs.map fun e => e.1.shape e.2).Pairwise
      fun a b => b.fixed = true → a.fixed = true) :
    (∃ s', (insertAll cs).outcome s = (.ok (), s') ∧ s.Takes config cs s') ∨
    ∃ before e after s₁ cause s₂, cs = before ++ e :: after ∧ s.Takes config before s₁ ∧
      s₁.step (.insert e.1 e.2) = (.error cause, s₂) ∧
      (insertAll cs).outcome s = (.error cause, s₂) ∧
      ((∃ n, cause = .iterationLimit n) ∨ s₁.state.verdict e.1 e.2 = .error cause) := by
  induction cs generalizing s with
  | nil => exact .inl ⟨s, rfl, .refl hs⟩
  | cons e cs ih =>
    obtain ⟨hc, hw⟩ := hcs e List.mem_cons_self
    have hdemand : Shape.demand s.state.shapes (e.1.shape e.2) = (e.1.shape e.2).symbols :=
      Shape.demand_of_fixed fun hfixed b hb =>
        (List.pairwise_append.mp hfirst).2.2 b hb _ List.mem_cons_self hfixed
    rw [Columns.outcome_insertAll_cons]
    rcases hs.takes_or hc hw hdemand with ⟨h, s', hstep, htakes⟩ | ⟨cause, s', hstep, hwhy⟩
    · rw [hstep]
      have hshapes : s'.state.shapes = s.state.shapes ++ [e.1.shape e.2] := htakes.shapes_eq hs
      rcases ih htakes.working (fun e he => hcs e (List.mem_cons_of_mem _ he))
        (by rw [hshapes, ← List.append_cons]; exact hfirst) with
        ⟨s₁, hall, htakes'⟩ | ⟨before, e', after, s₁, cause, s₂, rfl, htakes', hrest⟩
      · exact .inl ⟨s₁, hall, htakes.trans htakes'⟩
      · exact .inr ⟨e :: before, e', after, s₁, cause, s₂, rfl, htakes.trans htakes', hrest⟩
    · rw [hstep]
      exact .inr ⟨[], e, cs, s, cause, s', rfl, .refl hs, hstep, rfl, hwhy⟩

end Solver

end Cassowary
