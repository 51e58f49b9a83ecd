import Cassowary.Proofs.Basis
import Cassowary.Proofs.Persistence

/-!
# What repair overlooks

The dual method repairs the rows that are queued, and every operation queues the rows that it leaves
violated, but for one. When an artificial variable goes out of the basis, the row that comes into
its place is not looked at. Where the artificial variable has become as good as zero only, its
remainder is divided by the coefficient of the variable that takes its place, and what comes of that
may be as negative as one likes. Such a row is never repaired, unless its constant happens to change
later.

So a constraint that is inserted outside a batch leaves an empty queue, and all rows that are
violated then go back to artificial variables that had such a successor. The objective is as good as
optimal when the primal method is done; it stays so if there is nothing to repair after that. For
this, no law of arithmetic is used.

In rational arithmetic, whatever counts as zero among coefficients, both are the work of the
tolerance for signs. Without it, an artificial variable that has been driven to zero leaves nothing
that could be divided, and the dual method takes a smallest ratio and keeps the objective minimal.

## Main definitions

* `Tableau.untilRetirement` — an insertion up to the point where its artificial variable goes
* `Tableau.Slips` — an insertion whose artificial variable has a violated successor
* `Solver.Blamed` — a key that came into the basis in such a way in the course of a run

## Main results

* `Tableau.ensures_addConstraint_overlooks` — an insertion overlooks nothing else
* `Tableau.ensures_addConstraint_minimal` — without a tolerance, it leaves a minimal objective
* `Solver.run_overlooks` — whatever a run overlooks goes back to a slip
* `Solver.insert_repaired` — what an insertion outside a batch leaves
-/

namespace Cassowary

namespace Row

/-- Solving multiplies the constant by something, or leaves the row as it is. -/
theorem constant_solveForPair_cases {α : Type} [Scalar α] (row : Row α) (basic k : Key) :
    (row.solveForPair basic k).constant = row.constant ∨
      ∃ factor, (row.solveForPair basic k).constant = row.constant * factor := by
  have hequated : (row.equated basic k).constant = row.constant := by
    unfold equated
    split <;> rfl
  have hfold : ∀ r : Row α, r.foldScale.constant = r.constant := fun r => by
    unfold foldScale
    dsimp only
    split <;> rfl
  rw [solveForPair, solveFor, solveFor?]
  cases (row.equated basic k).find? k with
  | none => exact .inl hequated
  | some t =>
    refine .inr ⟨-1 / t.coefficient, ?_⟩
    rw [Option.map_some, Option.getD_some, hfold, ← hequated]
    rfl

end Row

namespace Tableau

open Attempt

variable {α : Type} [Scalar α] {t t' : Tableau α} {row : Row α} {k : Key} {P : Key → Prop}

/-- Only keys with a property are overlooked. -/
def OverlooksOnly (P : Key → Prop) (t : Tableau α) : Prop := ∀ k, t.Overlooks k → P k

theorem OverlooksOnly.of_overlooks (h : t.OverlooksOnly P)
    (hsub : ∀ k, t'.Overlooks k → t.Overlooks k) : t'.OverlooksOnly P :=
  fun k hk => h k (hsub k hk)

theorem OverlooksOnly.imp {Q : Key → Prop} (h : t.OverlooksOnly P) (hPQ : ∀ k, P k → Q k) :
    t.OverlooksOnly Q := fun k hk => hPQ k (h k hk)

theorem OverlooksOnly.of_eq (h : t.OverlooksOnly P) (hrows : t'.rows = t.rows)
    (hqueue : t'.infeasible = t.infeasible) (hepsilon : t'.epsilon = t.epsilon) :
    t'.OverlooksOnly P :=
  h.of_overlooks fun _ hk => hk.of_eq hrows hqueue hepsilon

/-! ## The methods -/

theorem keeps_optimize_overlooks (target : Target) :
    Keeps (optimize target) (OverlooksOnly (α := α) P) := by
  intro t ht
  refine ensures_iterate (fun h hrule => ?_) (fun h hrule => ?_) (fun h hrule => ?_)
    (fun h hrule => ?_) t.maxIterations ht
  · rwa [(primalRule_finished hrule).1]
  · rwa [(primalRule_impossible hrule).1]
  · rw [(primalRule_pivot hrule).1]
    exact h.of_overlooks fun _ => Overlooks.of_pivot
  · rwa [(primalRule_pivot hrule).1]

/-- What is still violated when the queue has been worked off was overlooked before. -/
theorem ensures_dualOptimize_overlooks (ht : t.OverlooksOnly P) :
    Ensures dualOptimize t (fun _ t' => t'.OverlooksOnly P ∧ t'.infeasible = []) fun _ _ => True := by
  refine ensures_iterate (P := OverlooksOnly P) (fun {t t'} h hrule => ?_) (fun _ _ => trivial)
    (fun {t t' entering leaving} h hrule => ?_) (fun _ _ => trivial) t.maxIterations ht
  · obtain ⟨rfl, hnext⟩ := dualRule_finished hrule
    refine ⟨fun k hk => ?_, rfl⟩
    obtain ⟨-, row, hrow, hviolates⟩ := hk
    exact h k (.of_violates hnext hrow hviolates)
  · obtain ⟨row, rest, rfl, hnext, -⟩ := dualRule_pivot hrule
    obtain ⟨hrow, -, skipped, hqueue, hskipped⟩ := nextViolated_eq_some hnext
    exact h.of_overlooks fun _ hk => hk.of_dual_pivot hrow hqueue hskipped

theorem ensures_solve_overlooks (ht : t.OverlooksOnly P) :
    Ensures solve t (fun _ t' => t'.OverlooksOnly P ∧ t'.infeasible = []) fun _ _ => True := by
  refine ensures_bind _ |>.mpr
    ((keeps_optimize_overlooks .objective t ht).imp (fun _ t' ht' => ?_) fun _ _ _ => trivial)
  refine ensures_bind _ |>.mpr
    ((ensures_dualOptimize_overlooks ht').imp (fun _ t' ht' => ?_) fun _ _ => id)
  exact ⟨ht'.1.of_eq rfl rfl rfl, ht'.2⟩

theorem upholds_solve : Upholds solve (OverlooksOnly (α := α) P) := fun _ ht =>
  (ensures_solve_overlooks ht).imp (fun _ _ => And.left) fun _ _ => id

/-- Finishing leaves an empty queue, whether solving is put off or not. -/
theorem ensures_finish_overlooks (defer : Bool) (ht : t.OverlooksOnly P) :
    Ensures (finish defer) t (fun _ t' => t'.OverlooksOnly P ∧ t'.infeasible = [])
      fun _ _ => True :=
  ensures_finish_of (fun _ hqueue => ⟨ht.of_eq rfl rfl rfl, hqueue⟩) fun _ =>
    ensures_solve_overlooks ht

theorem keeps_minimizeArtificial_overlooks :
    Keeps minimizeArtificial (OverlooksOnly (α := α) P) := by
  intro t ht
  rw [ensures_minimizeArtificial_iff]
  exact (keeps_optimize_overlooks .artificial t ht).imp (fun _ _ h => h.of_eq rfl rfl rfl)
    fun _ _ h => h.of_eq rfl rfl rfl

/-! ## The successor of an artificial variable -/

/-- Drives the artificial variable of an equation to zero. -/
def driveArtificial (row : Row α) : Attempt (Tableau α) Key := do
  let artificial ← newSymbol .artificial
  modify fun t => { t.putRow artificial row with artificial := some row }
  let residual ← minimizeArtificial
  let t ← get
  if t.epsilon < Scalar.magnitude residual then throw .unsatisfiable
  pure artificial

theorem addWithArtificial_eq (row : Row α) :
    addWithArtificial row = driveArtificial row >>= fun artificial =>
      retireArtificial artificial >>= fun _ => modify (·.dropColumn artificial) := by
  simp only [addWithArtificial, driveArtificial, bind_assoc]
  refine bind_congr fun artificial => bind_congr fun _ => bind_congr fun residual =>
    bind_congr fun t => ?_
  split
  · rfl
  · rfl

/-- An insertion up to the point where its artificial variable goes. The answer is the variable, if
there is one. -/
def untilRetirement (c : Constraint α) (w : Strength α) : Attempt (Tableau α) (Option Key) := do
  let (row, handle) ← createRow c w
  let row ← prepareFor row handle
  if (row.subject? handle).isSome || row.allDummies then pure none else some <$> driveArtificial row

/-- A key succeeds an artificial variable if it is the one that takes its place in the basis, and
its row is violated. -/
def Succeeds (t : Tableau α) (artificial k : Key) : Prop :=
  ∃ row, t.rows.get? artificial = some row ∧ row.anyPivotable = some k ∧
    t.violates k (row.solveForPair artificial k) = true

/-- An insertion slips if its artificial variable is still basic when it retires, and is succeeded
by the key. -/
def Slips (t : Tableau α) (c : Constraint α) (w : Strength α) (k : Key) : Prop :=
  ∃ artificial t', untilRetirement c w t = .ok (some artificial) t' ∧ t'.Succeeds artificial k

theorem ensures_driveArtificial (hartificial : ∀ k : Key, k.kind = .artificial → P k)
    (ht : t.OverlooksOnly P) :
    Ensures (driveArtificial row) t (fun _ t' => t'.OverlooksOnly P) fun _ _ => True := by
  refine ensures_bind _ |>.mpr ((ensures_newSymbol .artificial t).imp ?_ fun _ _ _ => trivial)
  rintro a _ ⟨⟨hkind, -⟩, rfl⟩
  rw [ensures_bind, ensures_modify, ensures_bind]
  have hput : OverlooksOnly P
      ({ ({ t with nextId := t.nextId + 1 } : Tableau α).putRow a row with artificial := some row }) :=
    fun k hk => ((hk.of_eq (t := ({ t with nextId := t.nextId + 1 } : Tableau α).putRow a row)
      rfl rfl rfl).of_putRow).elim (fun hk => ht k (hk.of_eq rfl rfl rfl))
      fun hk => hartificial k (hk.1 ▸ hkind)
  refine (keeps_minimizeArtificial_overlooks _ hput).imp (fun residual t' ht' => ?_)
    fun _ _ _ => trivial
  rw [ensures_bind, ensures_get]
  split
  · exact trivial
  · exact ht'

/-! ## What is left of an artificial variable -/

/-- The row of an artificial variable is what is minimised, for as long as the variable is basic. -/
structure Mirrors (artificial : Key) (t : Tableau α) : Prop where
  kind : artificial.kind = .artificial
  row : ∀ row, t.rows.get? artificial = some row → t.artificial = some row

theorem keeps_optimize_mirrors (artificial : Key) :
    Keeps (optimize .artificial) (Mirrors (α := α) artificial) := by
  intro t ht
  refine ensures_iterate (fun h hrule => ?_) (fun h hrule => ?_)
    (fun {t t' entering leaving} h hrule => ?_) (fun h hrule => ?_) t.maxIterations ht
  · rwa [(primalRule_finished hrule).1]
  · rwa [(primalRule_impossible hrule).1]
  · obtain ⟨rfl, _, -, hentering, hleaving⟩ := primalRule_pivot hrule
    obtain ⟨_, -, -, hpivotable, -⟩ := entering?_eq_some hentering
    obtain ⟨old, hold, -⟩ := leaving?_eq_some hleaving
    -- The row and the objective change alike, and no artificial variable enters
    refine ⟨h.kind, fun row hrow => ?_⟩
    have htarget : t'.targetRow .artificial = t'.artificial := rfl
    have hpivot : (t'.pivot entering leaving).targetRow .artificial = _ :=
      targetRow_pivot hold .artificial
    rcases get?_pivot_cases hold hrow with ⟨rfl, -⟩ | ⟨-, before, hbefore, rfl⟩
    · rw [Key.pivotable, h.kind] at hpivotable
      cases hpivotable
    · rw [htarget, h.row before hbefore] at hpivot
      exact hpivot
  · rwa [(primalRule_pivot hrule).1]

omit [Scalar α] in
theorem stable_epsilon (epsilon : α) : Stable fun t : Tableau α => t.epsilon = epsilon where
  eraseRow k h := (epsilon_eraseRow _ k).trans h
  putRow _ _ h := h
  revise _ h := h
  modifyObjective _ h := h
  frame h hepsilon _ _ _ _ _ := hepsilon.trans h

theorem ensures_minimizeArtificial_residual {artificial : Key} (ht : t.Mirrors artificial) :
    Ensures minimizeArtificial t (fun residual t' => t'.epsilon = t.epsilon ∧
      ∀ row, t'.rows.get? artificial = some row → row.constant = residual) fun _ _ => True := by
  rw [ensures_minimizeArtificial_iff]
  refine ((keeps_optimize_mirrors artificial t ht).and
    ((stable_epsilon t.epsilon).optimize .artificial t rfl)).imp ?_ fun _ _ _ => trivial
  rintro _ t' ⟨hmirrors, hepsilon⟩
  refine ⟨hepsilon, fun row hrow => ?_⟩
  rw [hmirrors.row row hrow]
  rfl

/-- An artificial variable that is still basic when it has been driven to zero is zero but for the
tolerance. -/
theorem ensures_driveArtificial_remainder (row : Row α) (t : Tableau α) :
    Ensures (driveArtificial row) t (fun artificial t' => t'.epsilon = t.epsilon ∧
      ∀ row, t'.rows.get? artificial = some row → ¬ t.epsilon < Scalar.magnitude row.constant)
      fun _ _ => True := by
  refine ensures_bind _ |>.mpr ((ensures_newSymbol .artificial t).imp ?_ fun _ _ _ => trivial)
  rintro a _ ⟨⟨hkind, -⟩, rfl⟩
  rw [ensures_bind, ensures_modify, ensures_bind]
  have hput : Mirrors a ({ ({ t with nextId := t.nextId + 1 } : Tableau α).putRow a row with
      artificial := some row }) := by
    refine ⟨hkind, fun row' hrow' => ?_⟩
    have hself :=
      (get?_putRow ({ t with nextId := t.nextId + 1 } : Tableau α) a row a).symm.trans hrow'
    rw [if_pos rfl] at hself
    exact hself
  refine (ensures_minimizeArtificial_residual hput).imp ?_ fun _ _ _ => trivial
  rintro residual t' ⟨hepsilon, hresidual⟩
  rw [ensures_bind, ensures_get]
  split
  · exact trivial
  · next hsmall =>
    rw [hepsilon] at hsmall
    exact ⟨hepsilon, fun row' hrow' => hresidual row' hrow' ▸ hsmall⟩

/-- A slip comes from what is left of an artificial variable, which is not above the tolerance. -/
theorem Slips.exists_remainder {c : Constraint α} {w : Strength α} (h : t.Slips c w k) :
    ∃ (artificial : Key) (row : Row α), ¬ t.epsilon < Scalar.magnitude row.constant ∧
      (row.solveForPair artificial k).constant < -t.epsilon := by
  obtain ⟨artificial, t', huntil, row, hrow, -, hviolates⟩ := h
  have hstable := stable_epsilon t.epsilon
  have hremainder : Ensures (untilRetirement c w) t (fun result t' => ∀ artificial,
      some artificial = result → t'.epsilon = t.epsilon ∧ ∀ row,
        t'.rows.get? artificial = some row → ¬ t.epsilon < Scalar.magnitude row.constant)
      fun _ _ => True := by
    refine ensures_bind _ |>.mpr ((hstable.createRow c w t rfl).imp ?_ fun _ _ _ => trivial)
    rintro ⟨row, handle⟩ t₀ h₀
    refine ensures_bind _ |>.mpr ((hstable.prepareFor row handle t₀ h₀).imp ?_
      fun _ _ _ => trivial)
    intro row t₁ h₁
    split
    · exact fun _ hsome => absurd hsome (Option.some_ne_none _)
    · refine ensures_map _ |>.mpr ((ensures_driveArtificial_remainder row t₁).imp ?_
        fun _ _ => id)
      rintro a t₂ ⟨h₂, hsmall⟩ _ ⟨⟩
      exact ⟨h₂.trans h₁, fun row hrow => h₁ ▸ hsmall row hrow⟩
  obtain ⟨hepsilon, hsmall⟩ := hremainder.of_eq_ok huntil artificial rfl
  rw [← hepsilon]
  exact ⟨artificial, row, hepsilon ▸ hsmall row hrow, (violates_iff.mp hviolates).2⟩

/-- A successor that is violated is all that can be overlooked when an artificial variable goes. -/
theorem ensures_retireArtificial_overlooks {artificial : Key} (ht : t.OverlooksOnly P)
    (hsucceeds : ∀ k, t.Succeeds artificial k → P k) :
    Ensures (retireArtificial artificial) t (fun _ t' => t'.OverlooksOnly P) fun _ _ => True := by
  have herased : (t.eraseRow artificial).OverlooksOnly P :=
    ht.of_overlooks fun _ => Overlooks.of_eraseRow
  refine ensures_retireArtificial_of (fun _ => ht) (fun _ _ _ => herased) (fun _ _ _ => trivial) ?_
  intro row entering hrow hentering k hk
  rcases hk.of_putRow with hk | ⟨rfl, -, hviolates⟩
  · exact herased k hk.of_eliminate
  · refine hsucceeds k ⟨row, hrow, hentering, ?_⟩
    rwa [violates_congr (epsilon_eliminate _ _ _),
      violates_congr (epsilon_eraseRow t artificial)] at hviolates

theorem ensures_prepareFor_overlooks {handle : Handle} (ht : t.OverlooksOnly P) :
    Ensures (prepareFor row handle) t (fun _ t' => t'.OverlooksOnly P) fun _ _ => True :=
  ensures_prepareFor_of (fun _ => ht) fun _ _ => upholds_solve t ht

/-- Of what an insertion changes, the successor of its artificial variable is all that it can
overlook. -/
theorem ensures_addConstraint_overlooks {c : Constraint α} {w : Strength α} (defer : Bool)
    (ht : t.OverlooksOnly P) (hartificial : ∀ k : Key, k.kind = .artificial → P k)
    (hslips : ∀ k, t.Slips c w k → P k) :
    Ensures (addConstraint c w defer) t (fun _ t' => t'.OverlooksOnly P ∧ t'.infeasible = [])
      fun _ _ => True := by
  have hfinish : ∀ {handle : Handle} {t' : Tableau α}, t'.OverlooksOnly P →
      Ensures (do finish defer; pure handle) t'
        (fun _ t' => t'.OverlooksOnly P ∧ t'.infeasible = []) fun _ _ => True := fun ht' =>
    ensures_bind _ |>.mpr ((ensures_finish_overlooks defer ht').imp (fun _ _ => id) fun _ _ => id)
  refine ensures_bind _ |>.mpr (((ensures_createRow_rows c w t).and ensures_self).imp ?_
    fun _ _ _ => trivial)
  rintro ⟨row, handle⟩ t₀ ⟨⟨hrows, hqueue, hepsilon⟩, hcreated⟩
  have ht₀ := ht.of_eq hrows hqueue hepsilon
  refine ensures_bind _ |>.mpr (ensures_bind _ |>.mpr
    (((ensures_prepareFor_overlooks ht₀).and ensures_self).imp ?_ fun _ _ _ => trivial))
  rintro row t₁ ⟨ht₁, hprepared⟩
  rw [ensures_bind, ensures_get]
  have hinstall : ∀ k, (t₁.install row k).OverlooksOnly P := fun k =>
    ht₁.of_overlooks fun _ => Overlooks.of_enter
  split
  · exact hfinish (hinstall _)
  · next hsubject =>
    split
    · split
      · exact trivial
      · exact hfinish (hinstall _)
    · next hdummies =>
      rw [addWithArtificial_eq, ensures_bind]
      refine ((ensures_driveArtificial hartificial ht₁).and ensures_self).imp ?_
        fun _ _ _ => trivial
      rintro artificial t₂ ⟨ht₂, hdriven⟩
      have huntil : untilRetirement c w t = .ok (some artificial) t₂ := by
        simp [untilRetirement, bind, EStateM.bind, hcreated, hprepared, hsubject, hdummies,
          Functor.map, EStateM.map, hdriven]
      refine ensures_bind _ |>.mpr ((ensures_retireArtificial_overlooks ht₂ fun k hk =>
        hslips k ⟨artificial, t₂, huntil, hk⟩).imp (fun _ t₃ ht₃ => ?_) fun _ _ => id)
      rw [ensures_modify]
      exact hfinish (ht₃.of_overlooks fun _ => Overlooks.of_dropColumn)

/-! ## Other operations -/

theorem upholds_removeConstraint_overlooks (h : Handle) (w : Strength α) (defer : Bool) :
    Upholds (removeConstraint h w defer) (OverlooksOnly (α := α) P) := by
  intro t ht
  have hprices : ∀ errors : List Key, (errors.foldl (·.dropPrice · w) t).OverlooksOnly P := by
    intro errors
    induction errors generalizing t with
    | nil => exact ht
    | cons error rest ih =>
      apply ih
      dsimp only [dropPrice]
      split <;> exact ht.of_eq rfl rfl rfl
  refine ensures_removeConstraint_of
    ((ensures_finish_overlooks defer ?_).imp (fun _ _ => And.left) fun _ _ => id)
  unfold dropMarker
  split
  · exact (hprices _).of_overlooks fun _ => Overlooks.of_eraseRow
  · split
    · exact (hprices _).of_overlooks fun _ hk => hk.of_eraseRow.of_pivot
    · exact hprices _

theorem upholds_suggest_overlooks (h : Handle) (delta : α) :
    Upholds (suggest h delta) (OverlooksOnly (α := α) P) := fun t ht =>
  ensures_suggest_of (fun _ => ht) (fun _ => upholds_solve t ht) (fun _ ht _ => ht) fun _ _ ht _ =>
    (ensures_dualOptimize_overlooks (ht.of_overlooks fun _ => Overlooks.of_reviseAndQueue)).imp
      (fun _ _ => And.left) fun _ _ => id

/-! ## The objective -/

/-- The primal method alone makes the tableau feasible when the constraint has come in. -/
def PrimalSuffices (t : Tableau α) (c : Constraint α) (w : Strength α) : Prop :=
  Ensures (do
    let (row, handle) ← createRow c w
    insertRow row handle
    optimize .objective) t (fun _ t' => t'.nextViolated t'.infeasible = none) fun _ _ => True

/-- When the primal method is done, no coefficient is left that it would improve. -/
theorem ensures_optimize_entering (t : Tableau α) :
    Ensures (optimize .objective) t (fun _ t' => t'.entering? t'.objective = none)
      fun _ _ => True :=
  ensures_iterate (P := fun _ => True)
    (fun _ hrule => by
      obtain ⟨rfl, hentering⟩ := primalRule_finished hrule
      exact hentering _ rfl)
    (fun _ _ => trivial) (fun _ _ => trivial) (fun _ _ => trivial) t.maxIterations trivial

/-- Where nothing is to be repaired, the dual method changes the queue only. -/
theorem dualOptimize_of_nextViolated (h : t.nextViolated t.infeasible = none) :
    dualOptimize t = .ok () { t with infeasible := [] } := by
  have hrule : dualRule t = (.finished, { t with infeasible := [] }) := by
    unfold dualRule
    rw [h]
  unfold dualOptimize iterate
  rw [hrule]

/-- Where the primal method leaves nothing to repair, the objective is as good as optimal. -/
theorem ensures_addConstraint_optimal {c : Constraint α} {w : Strength α}
    (hsuffices : t.PrimalSuffices c w) :
    Ensures (addConstraint c w false) t (fun _ t' => t'.entering? t'.objective = none)
      fun _ _ => True := by
  refine ensures_bind _ |>.mpr ((ensures_bind _ |>.mp hsuffices).imp ?_ fun _ _ => id)
  rintro ⟨row, handle⟩ t₀ hrest
  refine ensures_bind _ |>.mpr ((ensures_bind _ |>.mp hrest).imp ?_ fun _ _ => id)
  intro _ t₁ hoptimize
  refine ensures_bind _ |>.mpr (ensures_finish_of nofun fun _ => ?_)
  unfold solve
  simp only [ensures_bind]
  refine (hoptimize.and (ensures_optimize_entering t₁)).imp ?_ fun _ _ _ => trivial
  rintro _ t₂ ⟨hnext, hentering⟩
  unfold Ensures
  rw [dualOptimize_of_nextViolated hnext]
  exact hentering

/-! ## Signs without a tolerance -/

section Tolerance

variable {tolerance : Rat} {t : Tableau (Tolerant tolerance)}

/-- Without a tolerance for signs, the dual method keeps the objective minimal. -/
theorem ensures_dualOptimize_minimal (ht : t.Separated)
    (hminimal : t.epsilon = 0 → t.objective.Minimal) :
    Ensures dualOptimize t (fun _ t' => t'.epsilon = 0 → t'.objective.Minimal) fun _ _ => True := by
  refine ensures_iterate
    (P := fun t : Tableau (Tolerant tolerance) =>
      t.Separated ∧ (t.epsilon = 0 → t.objective.Minimal))
    (fun h hrule => ?_) (fun _ _ => trivial) (fun {t _ _ _} h hrule => ?_) (fun _ _ => trivial)
    t.maxIterations ⟨ht, hminimal⟩
  · obtain ⟨rfl, -⟩ := dualRule_finished hrule
    exact h.2
  · obtain ⟨row, rest, rfl, hnext, hentering⟩ := dualRule_pivot hrule
    obtain ⟨_, hterm, -⟩ := dualEntering?_eq_some hentering
    have hrow := (nextViolated_eq_some hnext).1
    have hrest : ({ t with infeasible := rest } : Tableau (Tolerant tolerance)).Separated :=
      h.1.of_eq rfl rfl (.inl rfl) le_rfl
    refine ⟨hrest.pivot ((h.1.row hrow).known_of_mem_terms hterm), fun hepsilon => ?_⟩
    rw [epsilon_pivot] at hepsilon
    exact minimal_dual_pivot hrest hepsilon (h.2 hepsilon) hrow hentering

/-- Without a tolerance for signs, an insertion that is not put off leaves a minimal objective. -/
theorem ensures_addConstraint_minimal {c : Constraint (Tolerant tolerance)} {n : Nat}
    (w : Strength (Tolerant tolerance)) (ht : t.Apart n) (hc : c.OverLayout) :
    Ensures (addConstraint c w false) t (fun _ t' => t'.epsilon = 0 → t'.objective.Minimal)
      fun _ _ => True := by
  refine ensures_bind _ |>.mpr
    ((ensures_createRow_apart ht hc w).imp ?_ fun _ _ _ => trivial)
  rintro ⟨row, handle⟩ t₀ ⟨h₀, hrow, hmarkers⟩
  refine ensures_bind _ |>.mpr
    ((ensures_insertRow_apart h₀ hrow hmarkers).imp (fun _ t₁ h₁ => ?_) fun _ _ _ => trivial)
  refine ensures_bind _ |>.mpr (ensures_finish_of nofun fun _ => ?_)
  unfold solve
  simp only [ensures_bind]
  refine ((keeps_optimize_apart .objective t₁ h₁).and (ensures_optimize_entering t₁)).imp ?_
    fun _ _ _ => trivial
  rintro _ t₂ ⟨h₂, hentering⟩
  exact (ensures_dualOptimize_minimal h₂.separated fun hepsilon =>
    minimal_of_entering?_eq_none hepsilon hentering).imp (fun _ _ => id) fun _ _ => id

end Tolerance

end Tableau

namespace Solver

open Attempt

variable {α : Type} [Scalar α] {config : Config α} {s s' : Solver α} {os : List (Operation α)}
  {c : Constraint α} {w : Strength α} {h : Handle} {k : Key}

/-- An operation slips if it inserts a constraint, and the insertion slips. -/
def Slips (s : Solver α) (o : Operation α) (k : Key) : Prop :=
  ∃ c w, o.added s = some (c, w) ∧ s.opening.Slips c w k

/-- Some operation of a run has slipped and brought the key into the basis. -/
def Blamed (config : Config α) (os : List (Operation α)) (k : Key) : Prop :=
  ∃ before o after, os = before ++ o :: after ∧ ((ofConfig config).run before).Slips o k

theorem Blamed.append (hk : Blamed config os k) (os' : List (Operation α)) :
    Blamed config (os ++ os') k := by
  obtain ⟨before, o, after, rfl, hslips⟩ := hk
  exact ⟨before, o, after ++ os', by simp, hslips⟩

theorem Slips.blamed {o : Operation α} (hk : ((ofConfig config).run os).Slips o k) :
    Blamed config (os ++ [o]) k := ⟨os, o, [], rfl, hk⟩

/-- What may be overlooked after a run: artificial variables, and what is to be blamed on a slip. -/
def Excused (config : Config α) (os : List (Operation α)) (k : Key) : Prop :=
  k.kind = .artificial ∨ Blamed config os k

theorem Excused.append (hk : Excused config os k) (os' : List (Operation α)) :
    Excused config (os ++ os') k :=
  hk.imp_right fun hk => hk.append os'

theorem persistent_overlooksOnly (P : Key → Prop) :
    Persistent (Tableau.OverlooksOnly (α := α) P) where
  empty _ _ k hk := by
    obtain ⟨-, row, hrow, -⟩ := hk
    cases hrow
  begin _ ht := ht.of_eq rfl rfl rfl
  commit _ ht := ht.of_eq rfl rfl rfl
  solve := Tableau.upholds_solve
  removeConstraint := Tableau.upholds_removeConstraint_overlooks
  suggest := Tableau.upholds_suggest_overlooks

/-- Whatever a run overlooks goes back to a slip. -/
theorem run_overlooks (config : Config α) (os : List (Operation α)) :
    ((ofConfig config).run os).Has (Tableau.OverlooksOnly (Excused config os)) := by
  induction os using List.reverseRecOn with
  | nil => exact fun _ => ⟨(persistent_overlooksOnly _).empty _ _, fun _ _ hopen => by cases hopen⟩
  | append_singleton os o ih =>
    have hrest : ((ofConfig config).run os).AtRest config := Reachable.atRest ⟨os, rfl⟩
    rw [run_append]
    refine (ih.mono fun t ht => ht.imp fun k hk => hk.append [o]).step
      (persistent_overlooksOnly _) hrest fun c w hadded ht => ?_
    exact (Tableau.ensures_addConstraint_overlooks _ ht (fun _ => .inl)
      fun k hk => .inr (Slips.blamed ⟨c, w, hadded, hk⟩)).imp (fun _ _ => And.left) fun _ _ => id

/-- After an insertion no row is queued, and what is violated goes back to a slip. -/
theorem insert_traced (hs : (ofConfig config).run os = s) (hpoisoned : s.poisoned = false)
    (hstep : s.step (.insert c w) = (.ok (.inserted h), s')) :
    s'.state.tableau.infeasible = [] ∧
    ∀ k row, s'.state.tableau.rows.get? k = some row → k.unrestricted = false →
      k.kind ≠ .artificial → row.constant < -config.epsilon →
        Blamed config (os ++ [.insert c w]) k := by
  have hrest : s.AtRest config := hs ▸ Reachable.atRest ⟨os, rfl⟩
  have hoverlooks : s.Has (Tableau.OverlooksOnly (Excused config os)) :=
    hs ▸ run_overlooks config os
  have hopening := (hoverlooks.opening (persistent_overlooksOnly _).begin hpoisoned).imp
    fun k hk => hk.append [.insert c w]
  have hslips : ∀ k, s.opening.Slips c w k → Excused config (os ++ [.insert c w]) k :=
    fun k hk => .inr (Slips.blamed ⟨c, w, rfl, hs ▸ hk⟩)
  obtain ⟨t, ⟨hoverlooks, hqueue⟩, hepsilon, heq⟩ := exists_tableau_of_inserted hrest hstep
    (Tableau.ensures_addConstraint_overlooks _ hopening (fun _ => .inl) hslips)
  rw [heq]
  refine ⟨hqueue, fun k row hrow hk hkind hconstant => ?_⟩
  -- The queue is empty, so whatever is violated is overlooked
  have hviolates : t.violates k row = true :=
    Tableau.violates_iff.mpr ⟨hk, by rwa [hepsilon]⟩
  have hnext : t.nextViolated t.infeasible = none := by rw [hqueue]; rfl
  exact (hoverlooks k (.of_violates hnext hrow hviolates)).resolve_left hkind

/-- After an insertion outside a batch the objective is as good as optimal, if the primal method
left nothing to repair. -/
theorem insert_optimal (hrest : s.AtRest config) (hbatching : s.isBatching = false)
    (hsuffices : s.opening.PrimalSuffices c w)
    (hstep : s.step (.insert c w) = (.ok (.inserted h), s')) :
    ∀ term ∈ s'.state.tableau.objective.terms, term.var.pivotable = true →
      -config.epsilon ≤ term.coefficient := by
  intro term hterm hpivotable
  obtain ⟨t, hentering, hepsilon, heq⟩ := exists_tableau_of_inserted hrest hstep
    (hbatching ▸ Tableau.ensures_addConstraint_optimal hsuffices)
  rw [heq] at hterm
  rw [← hepsilon]
  exact Tableau.entering?_eq_none hentering hterm hpivotable

/-! ## Rational arithmetic -/

section Tolerance

variable {tolerance : Rat} {config : Config (Tolerant tolerance)}
  {os : List (Operation (Tolerant tolerance))} {s s' : Solver (Tolerant tolerance)}
  {c : Constraint (Tolerant tolerance)} {w : Strength (Tolerant tolerance)}

/-- Without a tolerance, nothing is left of an artificial variable that is driven to zero. -/
theorem not_slips {t : Tableau (Tolerant tolerance)} (hepsilon : t.epsilon = 0) :
    ¬ t.Slips c w k := by
  intro hslips
  obtain ⟨artificial, row, hsmall, hneg⟩ := hslips.exists_remainder
  rw [hepsilon] at hsmall hneg
  have hzero : row.constant = 0 := by
    unfold Scalar.magnitude at hsmall
    split at hsmall
    · next hlt => exact absurd (neg_pos.mpr hlt) hsmall
    · next hnot => exact le_antisymm (not_lt.mp hsmall) (not_lt.mp hnot)
  have hsolved : (row.solveForPair artificial k).constant = 0 := by
    rcases row.constant_solveForPair_cases artificial k with heq | ⟨factor, heq⟩
    · exact heq.trans hzero
    · rw [heq, hzero]
      exact zero_mul factor
  rw [hsolved, neg_zero] at hneg
  exact lt_irrefl _ hneg

/-- Without a tolerance for signs, an insertion outside a batch leaves nothing that would improve
the objective. -/
theorem insert_minimal (hrest : s.AtRest config) (hapart : s.Apart) (hbatching : s.isBatching = false)
    (hc : c.OverLayout) (hzero : config.epsilon = 0)
    (hstep : s.step (.insert c w) = (.ok (.inserted h), s')) :
    ∀ term ∈ s'.state.tableau.objective.terms, term.var.pivotable = true →
      -config.epsilon ≤ term.coefficient := by
  intro term hterm hpivotable
  obtain ⟨t, hminimal, hepsilon, heq⟩ := exists_tableau_of_inserted hrest hstep
    (hbatching ▸ Tableau.ensures_addConstraint_minimal w hapart.opening hc)
  rw [heq] at hterm
  rw [hzero, neg_zero, Row.coefficient_of_mem_terms hterm]
  exact hminimal (hepsilon.trans hzero) term.var hpivotable

/-- In rational arithmetic, with any tolerance for coefficients, a successful insertion outside a
batch leaves no row in the queue. A symbol whose row is then below the tolerance of the
configuration has taken the place of an artificial variable in the course of the run and was left
violated; that does not happen if the configuration allows for no tolerance. No coefficient that the
primal method would improve is left in the objective if the configuration allows for no tolerance,
or if the primal method had left nothing to repair. -/
theorem insert_repaired (hs : (ofConfig config).run os = s) (hpoisoned : s.poisoned = false)
    (hbatch : s.batch = none) (hstep : s.step (.insert c w) = (.ok (.inserted h), s')) :
    s'.state.tableau.infeasible = [] ∧
    (∀ k row, s'.state.tableau.rows.get? k = some row → k.unrestricted = false →
      k.kind ≠ .artificial → -config.epsilon ≤ row.constant ∨
        config.epsilon ≠ 0 ∧ Blamed config (os ++ [.insert c w]) k) ∧
    ((config.epsilon = 0 ∧ ∀ o ∈ os ++ [.insert c w], o.OverLayout) ∨
        s.opening.PrimalSuffices c w →
      ∀ term ∈ s'.state.tableau.objective.terms,
        term.var.pivotable = true → -config.epsilon ≤ term.coefficient) := by
  have hrest : s.AtRest config := hs ▸ Reachable.atRest ⟨os, rfl⟩
  have hbatching : s.isBatching = false := by rw [isBatching, hbatch, Option.isSome_none]
  obtain ⟨hqueue, hblamed⟩ := insert_traced hs hpoisoned hstep
  refine ⟨hqueue, fun k row hrow hk hkind => or_iff_not_imp_left.mpr fun hbelow => ?_, ?_⟩
  · have hslipped := hblamed k row hrow hk hkind (not_le.mp hbelow)
    refine ⟨fun hepsilon => ?_, hslipped⟩
    obtain ⟨before, o, after, -, c', w', -, hslips⟩ := hslipped
    have hbefore : ((ofConfig config).run before).AtRest config := Reachable.atRest ⟨before, rfl⟩
    exact not_slips (hbefore.epsilon_opening.trans hepsilon) hslips
  · rintro (⟨hepsilon, hlayout⟩ | hsuffices)
    · have hapart : s.Apart := hs ▸ run_apart fun o ho => hlayout o (List.mem_append_left _ ho)
      exact insert_minimal hrest hapart hbatching
        (hlayout (.insert c w) (List.mem_append_right _ List.mem_cons_self)) hepsilon hstep
    · exact insert_optimal hrest hbatching hsuffices hstep

end Tolerance

/-- Two variables that may not be negative. -/
def quadrant : List (Operation (Tolerant (1 / 10 ^ 8))) :=
  [.insert (.ofFormulas (.var (.external 0)) .greaterOrEqual (.number 0)) .required,
    .insert (.ofFormulas (.var (.external 1)) .greaterOrEqual (.number 0)) .required]

/-- An equality with small coefficients that zero almost meets. -/
def slanted : Constraint (Tolerant (1 / 10 ^ 8)) :=
  .ofFormulas (.form ⟨[⟨.external 0, 1 / 2 ^ 13⟩, ⟨.external 1, -1 / 10 ^ 8⟩], 0⟩) .equal
    (.number (-1 / 2 ^ 28))

/-- Two variables that are drawn to zero, the first one a little more. -/
def drawn : List (Operation (Tolerant (1 / 10 ^ 8))) :=
  [.insert ((Variable.external 0).heldAt 0) ⟨1.0000005⟩,
    .insert ((Variable.external 1).heldAt 0) .weak]

/-- A bound that only one of two variables has to give way to. -/
def stretched : Constraint (Tolerant (1 / 10 ^ 8)) :=
  .ofFormulas (.form ⟨[⟨.external 0, 100⟩, ⟨.external 1, 100⟩], 0⟩) .greaterOrEqual (.number 100)

theorem overLayout_drawn : ∀ o ∈ drawn ++ [.insert stretched .required], o.OverLayout := by
  intro o ho
  simp only [drawn, List.cons_append, List.nil_append, List.mem_cons, List.not_mem_nil,
    or_false] at ho
  rcases ho with rfl | rfl | rfl
  · exact Variable.overLayout_heldAt _ _
  · exact Variable.overLayout_heldAt _ _
  · exact Constraint.overLayout_reduce _ _ _

/-- The slack of the first variable is below the tolerance after the equality, and that is to be
blamed on a slip. The bound leaves an objective that cannot be improved, if no tolerance is
allowed for. -/
theorem insert_repaired_slanted :
    ((((ofConfig ⟨1 / 10 ^ 8, true, 100⟩).run quadrant).step
        (.insert slanted .required)).2.state.tableau.infeasible = [] ∧
      Blamed ⟨1 / 10 ^ 8, true, 100⟩ (quadrant ++ [.insert slanted .required])
        (.ofIndex .slack false 0)) ∧
    ∀ term ∈ (((ofConfig ⟨0, true, 100⟩).run drawn).step
        (.insert stretched .required)).2.state.tableau.objective.terms,
      term.var.pivotable = true → -0 ≤ term.coefficient := by
  constructor
  · have hstep : ((ofConfig ⟨1 / 10 ^ 8, true, 100⟩).run quadrant).step
        (.insert slanted .required) = (.ok (.inserted ⟨.ofIndex .dummy false 2, none⟩),
          (((ofConfig ⟨1 / 10 ^ 8, true, 100⟩).run quadrant).step (.insert slanted .required)).2) :=
      Prod.ext (by decide +kernel) rfl
    have hrepaired := insert_repaired rfl (by decide +kernel)
      (Option.isNone_iff_eq_none.mp (by decide +kernel)) hstep
    have hslack : ((((ofConfig ⟨1 / 10 ^ 8, true, 100⟩).run quadrant).step
        (.insert slanted .required)).2.state.tableau.rows.get? (.ofIndex .slack false 0)).map
          (·.constant) = some (-1 / 2 ^ 15) := by decide +kernel
    obtain ⟨row, hrow, hconstant⟩ := Option.map_eq_some_iff.mp hslack
    refine ⟨hrepaired.1, ((hrepaired.2.1 _ row hrow rfl nofun).resolve_left ?_).2⟩
    rw [hconstant]
    decide +kernel
  · have hstep : ((ofConfig ⟨0, true, 100⟩).run drawn).step (.insert stretched .required) =
        (.ok (.inserted ⟨.ofIndex .slack false 4, none⟩),
          (((ofConfig ⟨0, true, 100⟩).run drawn).step (.insert stretched .required)).2) :=
      Prod.ext (by decide +kernel) rfl
    exact (insert_repaired rfl (by decide +kernel)
      (Option.isNone_iff_eq_none.mp (by decide +kernel)) hstep).2.2 (.inl ⟨rfl, overLayout_drawn⟩)

/-- With the tolerances that are the defaults, the slack of a required inequality is negative after
an insertion that has succeeded. After another one the objective can still be improved: the dual
method has taken a ratio that was the smallest but for the tolerance, and of the variables drawn to
zero the one has given way that costs more. -/
theorem insert_not_repaired :
    ((((ofConfig ⟨1 / 10 ^ 8, true, 100⟩).run quadrant).step (.insert slanted .required)).1 =
        .ok (.inserted ⟨.ofIndex .dummy false 2, none⟩) ∧
      ((((ofConfig ⟨1 / 10 ^ 8, true, 100⟩).run quadrant).step
        (.insert slanted .required)).2.state.tableau.rows.get? (.ofIndex .slack false 0)).map
          (·.constant) = some (-1 / 2 ^ 15) ∧
      ((((ofConfig ⟨1 / 10 ^ 8, true, 100⟩).run quadrant).step
        (.insert slanted .required)).2.read (.external 0)) = .value (-1 / 2 ^ 15)) ∧
    ((((ofConfig ⟨1 / 10 ^ 8, true, 100⟩).run drawn).step (.insert stretched .required)).1 =
        .ok (.inserted ⟨.ofIndex .slack false 4, none⟩) ∧
      (((ofConfig ⟨1 / 10 ^ 8, true, 100⟩).run drawn).step
        (.insert stretched .required)).2.state.tableau.objective.coefficientFor
          (.ofIndex .error false 3) = -5 / 10 ^ 7) := by
  refine ⟨⟨?_, ?_, ?_⟩, ?_, ?_⟩ <;> decide +kernel

end Solver

end Cassowary
