import Cassowary.Proofs.Parts

/-!
# What the journal can undo

While an operation runs, the journal holds what is needed to get back to the tableau before it. This
is said here of every state on the way: whatever has been pivoted, queued or dropped so far, undoing
leads back to the rows in their order, to their cells, and to the objective. No law of arithmetic is
used, so it is the same for floating point.

## Main definitions

* `Journal.Covers` — the journal and the present rows and objective determine the prior ones
* `Tableau.UndoesTo` — undoing leads to a given tableau

## Main results

* `Tableau.UndoesTo.rollback_eq` — undoing restores the tableau
* `Tableau.UndoesTo.eraseRow`, `Tableau.UndoesTo.putRow`, `Tableau.UndoesTo.revise`,
  `Tableau.UndoesTo.modifyObjective` — each change is told to the journal
* `Tableau.Stable.iterate`, `Tableau.Stable.solve` — so do the loops of the simplex methods
* `Tableau.keeps_addConstraint`, `Tableau.keeps_removeConstraint`, `Tableau.keeps_suggest` — whole
  operations can be undone wherever they stop
-/

namespace Cassowary

variable {α : Type}

/-! ## Notes in the journal -/

namespace Journal

theorem priorRow_noteRow (j : Journal α) (k k' : Key) (prior current : Option (Row α)) :
    (j.noteRow k prior).priorRow k' current =
      if k' = k then j.priorRow k prior else j.priorRow k' current := by
  split
  · next h =>
    subst h
    simp only [priorRow, noteRow, Table.insertIfNew, Table.get?_alter_self]
    cases j.rows.get? k' <;> rfl
  · next h => simp only [priorRow, noteRow, Table.insertIfNew, Table.get?_alter_of_ne _ _ h]

theorem priorRow_noteRows (j : Journal α) (entries : List (Key × Row α)) (k : Key)
    (current : Option (Row α)) :
    (j.noteRows entries).priorRow k current = j.priorRow k ((entries.lookup k).or current) := by
  induction entries generalizing j with
  | nil => rfl
  | cons e rest ih =>
    obtain ⟨k', row⟩ := e
    rw [noteRows, List.foldl_cons]
    apply (ih (j.noteRow k' (some row))).trans
    rw [priorRow_noteRow]
    by_cases h : k = k'
    · simp [h]
    · simp [h, List.lookup_cons, beq_eq_false_iff_ne.mpr h]

/-- A note of rows leaves all other notes alone. -/
theorem noteRows_eq (j : Journal α) (entries : List (Key × Row α)) :
    j.noteRows entries = { j with rows := (j.noteRows entries).rows } := by
  induction entries generalizing j with
  | nil => rfl
  | cons e rest ih =>
    rw [noteRows, List.foldl_cons]
    exact ih (j.noteRow e.1 (some e.2))

/-- The journal, together with the rows and the objective that there are now, determines those of a
tableau before them. -/
structure Covers (j : Journal α) (t₀ : Tableau α) (rows : Table Key (Row α))
    (objective : Row α) : Prop where
  infeasible : j.infeasible = t₀.infeasible
  nextId : j.nextId = t₀.nextId
  deferred : j.deferred = t₀.deferred
  pivots : j.pivots = t₀.pivots
  /-- The first note of the objective is the prior objective; without one it has not changed. -/
  objective : j.objective.getD objective = t₀.objective
  /-- Without a note of the order, no row came or went. -/
  order : j.order = some t₀.rows.keys ∨ j.order = none ∧ rows.keys = t₀.rows.keys
  /-- The first note of a row is the prior row; without one it has not changed. -/
  row : ∀ k ∈ t₀.rows.keys, j.priorRow k (rows.get? k) = t₀.rows.get? k

namespace Covers

variable {j : Journal α} {t₀ : Tableau α} {rows rows' : Table Key (Row α)} {objective : Row α}

/-- The rows that the journal restores are the prior ones, in their order. -/
theorem restoreRows_eq (h : j.Covers t₀ rows objective) : j.restoreRows rows = t₀.rows := by
  rcases h.order with horder | ⟨horder, hkeys⟩
  · -- With the order noted, the rows are collected again key by key
    have hentries : t₀.rows.keys.filterMap
        (fun k => (j.priorRow k (rows.get? k)).map (k, ·)) = t₀.rows.entries :=
      (List.filterMap_congr fun k hk => by rw [h.row k hk]).trans (Table.filterMap_keys t₀.rows)
    rw [restoreRows, horder]
    exact (congrArg Table.ofList hentries).trans (Table.ofList_entries t₀.rows)
  · rw [restoreRows, horder]
    refine Table.ext_get? ((Table.keys_mapValues _ _).trans hkeys) fun k hk => ?_
    rw [Table.keys_mapValues] at hk
    obtain ⟨row, hrow⟩ := Table.exists_get?_of_mem_keys hk
    obtain ⟨prior, hprior⟩ := Table.exists_get?_of_mem_keys (hkeys ▸ hk)
    have hnoted := h.row k (hkeys ▸ hk)
    rw [hrow, hprior] at hnoted
    rw [Table.get?_mapValues, hrow, hprior, Option.map_some, hnoted, Option.getD_some]

/-- A change of rows is covered if the note of each row that it changes comes before it. -/
theorem of_rows {j' : Journal α} (h : j.Covers t₀ rows objective)
    (hsame : ({ j' with rows := j.rows, order := j.order } : Journal α) = j)
    (horder : j'.order = some (j.order.getD rows.keys) ∨
      j'.order = j.order ∧ rows'.keys = rows.keys)
    (hrow : ∀ k ∈ t₀.rows.keys, j'.priorRow k (rows'.get? k) = j.priorRow k (rows.get? k)) :
    j'.Covers t₀ rows' objective where
  infeasible := (congrArg Journal.infeasible hsame).trans h.infeasible
  nextId := (congrArg Journal.nextId hsame).trans h.nextId
  deferred := (congrArg Journal.deferred hsame).trans h.deferred
  pivots := (congrArg Journal.pivots hsame).trans h.pivots
  objective := (congrArg (·.objective.getD objective) hsame).trans h.objective
  order := by
    -- An order that was noted before is kept, since the first one is the prior one
    rcases horder with horder | ⟨horder, hkeys⟩
    · left
      rcases h.order with hnoted | ⟨hnoted, hkeys⟩
      · rw [horder, hnoted, Option.getD_some]
      · rw [horder, hnoted, Option.getD_none, hkeys]
    · rw [horder, hkeys]
      exact h.order
  row k hk := (hrow k hk).trans (h.row k hk)

end Covers

end Journal

namespace Tableau

variable {t t₀ : Tableau α}

/-- Undoing leads to the tableau `t₀`. Where nothing is noted, nothing can be undone, and only the
settings are known to be the same. -/
structure UndoesTo (t t₀ : Tableau α) : Prop where
  epsilon : t.epsilon = t₀.epsilon
  maxIterations : t.maxIterations = t₀.maxIterations
  isSome_journal : t.journal.isSome = t₀.journal.isSome
  covers : ∀ j, t.journal = some j → j.Covers t₀ t.rows t.objective

namespace UndoesTo

/-- Nothing is noted at the start of an operation, and nothing has changed. -/
theorem begin (t : Tableau α) : t.begin.UndoesTo t.begin where
  epsilon := rfl
  maxIterations := rfl
  isSome_journal := rfl
  covers := by
    rintro j ⟨⟩
    exact ⟨rfl, rfl, rfl, rfl, rfl, .inr ⟨rfl, rfl⟩, fun k _ => rfl⟩

theorem of_journal_eq_none (h : t.journal = none) : t.UndoesTo t where
  epsilon := rfl
  maxIterations := rfl
  isSome_journal := rfl
  covers j hj := by simp [h] at hj

/-- Undoing an operation on a tableau that was at rest restores it. -/
theorem rollback_eq (h : t.UndoesTo t₀.begin) (hjournal : t₀.journal = none)
    (hartificial : t₀.artificial = none) : t.rollback = t₀ := by
  obtain ⟨j, hj⟩ := Option.isSome_iff_exists.mp h.isSome_journal
  have hcovers := h.covers j hj
  rw [rollback, hj]
  simp only [hcovers.restoreRows_eq, hcovers.objective, hcovers.infeasible, hcovers.nextId,
    hcovers.deferred, hcovers.pivots, h.epsilon, h.maxIterations, ← hartificial, ← hjournal]
  rfl

/-! ## Single changes -/

/-- What is not noted in the course of an operation may change freely. -/
theorem of_eq {t' : Tableau α} (h : t.UndoesTo t₀) (hepsilon : t'.epsilon = t.epsilon)
    (hlimit : t'.maxIterations = t.maxIterations) (hjournal : t'.journal = t.journal)
    (hrows : t'.rows = t.rows) (hobjective : t'.objective = t.objective) : t'.UndoesTo t₀ where
  epsilon := hepsilon.trans h.epsilon
  maxIterations := hlimit.trans h.maxIterations
  isSome_journal := hjournal ▸ h.isSome_journal
  covers j hj := by rw [hrows, hobjective]; exact h.covers j (hjournal ▸ hj)

/-- A change of rows that is noted before it is made. -/
theorem of_note (h : t.UndoesTo t₀) (tell : Journal α → Journal α) (rows : Table Key (Row α))
    (hcovers : ∀ j : Journal α, j.Covers t₀ t.rows t.objective →
      (tell j).Covers t₀ rows t.objective) :
    UndoesTo { t.note tell with rows := rows } t₀ where
  epsilon := h.epsilon
  maxIterations := h.maxIterations
  isSome_journal := Option.isSome_map.trans h.isSome_journal
  covers j hj := by
    obtain ⟨j', hj', rfl⟩ := Option.map_eq_some_iff.mp hj
    exact hcovers j' (h.covers j' hj')

theorem eraseRow (h : t.UndoesTo t₀) (k : Key) : (t.eraseRow k).UndoesTo t₀ := by
  unfold Tableau.eraseRow
  split
  · next row hrow =>
    refine h.of_note _ _ fun j hj => hj.of_rows rfl (.inl rfl) fun k' _ => ?_
    rw [Journal.priorRow_noteRow, Table.get?_erase]
    split
    · next heq => rw [heq, hrow]; rfl
    · rfl
  · exact h

theorem putRow (h : t.UndoesTo t₀) (k : Key) (row : Row α) : (t.putRow k row).UndoesTo t₀ := by
  apply h.of_note _ _
  intro j hj
  have hrow : ∀ j' : Journal α, j'.rows = j.rows → ∀ k',
      (j'.noteRow k (t.rows.get? k)).priorRow k' ((t.rows.insert k row).get? k') =
        j.priorRow k' (t.rows.get? k') := fun j' hrows k' => by
    rw [Journal.priorRow_noteRow, Table.get?_insert]
    simp only [Journal.priorRow, hrows]
    split
    · next heq => rw [heq]
    · rfl
  by_cases hbasic : t.isBasic k = true
  · rw [if_pos hbasic]
    refine hj.of_rows rfl (.inr ⟨rfl, ?_⟩) fun k' _ => hrow j rfl k'
    rw [Table.keys_insert, if_pos (Table.contains_iff_mem_keys.mp hbasic)]
  · rw [if_neg hbasic]
    exact hj.of_rows rfl (.inl rfl) fun k' _ => hrow (j.noteOrder t.rows.keys) rfl k'

theorem revise (h : t.UndoesTo t₀) (change : Key → Row α → Option (Row α)) :
    (t.revise change).UndoesTo t₀ := by
  apply h.of_note _ _
  intro j hj
  refine hj.of_rows (by rw [Journal.noteRows_eq])
    (.inr ⟨by rw [Journal.noteRows_eq], Table.keys_mapValues _ _⟩) fun k _ => ?_
  have hlookup : (t.rows.entries.filter fun e => (change e.1 e.2).isSome).lookup k =
      (t.rows.get? k).filter fun row => (change k row).isSome :=
    Table.get?_filter t.rows (fun k row => (change k row).isSome) k
  rw [Journal.priorRow_noteRows, hlookup, Table.get?_mapValues]
  cases t.rows.get? k with
  | none => rfl
  | some row =>
    cases hchange : change k row with
    | none => simp [Option.filter, hchange]
    | some row' => simp [Option.filter, hchange]

theorem modifyObjective (h : t.UndoesTo t₀) (f : Row α → Row α) :
    (t.modifyObjective f).UndoesTo t₀ where
  epsilon := h.epsilon
  maxIterations := h.maxIterations
  isSome_journal := Option.isSome_map.trans h.isSome_journal
  covers j hj := by
    obtain ⟨j', hj', rfl⟩ := Option.map_eq_some_iff.mp hj
    have hcovers := h.covers j' hj'
    exact ⟨hcovers.infeasible, hcovers.nextId, hcovers.deferred, hcovers.pivots,
      hcovers.objective, hcovers.order, hcovers.row⟩

end UndoesTo

/-! ## Whole operations -/

section Operations

open Attempt

variable {P : Tableau α → Prop}

/-- A property that every single change of a tableau keeps. The queue, the counts and the content of
the artificial objective do not matter to it. -/
structure Stable (P : Tableau α → Prop) : Prop where
  eraseRow : ∀ {t} (k : Key), P t → P (t.eraseRow k)
  putRow : ∀ {t} (k : Key) (row : Row α), P t → P (t.putRow k row)
  revise : ∀ {t} (change : Key → Row α → Option (Row α)), P t → P (t.revise change)
  modifyObjective : ∀ {t} (f : Row α → Row α), P t → P (t.modifyObjective f)
  frame : ∀ {t t' : Tableau α}, P t → t'.epsilon = t.epsilon → t'.maxIterations = t.maxIterations →
    t'.journal = t.journal → t'.rows = t.rows → t'.objective = t.objective →
    t'.artificial.isSome = t.artificial.isSome → P t'

theorem stable_undoesTo (t₀ : Tableau α) : Stable (UndoesTo · t₀) where
  eraseRow k h := h.eraseRow k
  putRow k row h := h.putRow k row
  revise change h := h.revise change
  modifyObjective f h := h.modifyObjective f
  frame h hepsilon hlimit hjournal hrows hobjective _ :=
    h.of_eq hepsilon hlimit hjournal hrows hobjective

theorem stable_artificial : Stable fun t : Tableau α => t.artificial = none where
  eraseRow k h := by unfold Tableau.eraseRow; split <;> exact h
  putRow _ _ h := h
  revise _ h := h
  modifyObjective _ h := h
  frame h _ _ _ _ _ hsome := by simpa [h] using hsome

theorem Stable.and {Q : Tableau α → Prop} (hP : Stable P) (hQ : Stable Q) :
    Stable fun t => P t ∧ Q t where
  eraseRow k h := ⟨hP.eraseRow k h.1, hQ.eraseRow k h.2⟩
  putRow k row h := ⟨hP.putRow k row h.1, hQ.putRow k row h.2⟩
  revise change h := ⟨hP.revise change h.1, hQ.revise change h.2⟩
  modifyObjective f h := ⟨hP.modifyObjective f h.1, hQ.modifyObjective f h.2⟩
  frame h h₁ h₂ h₃ h₄ h₅ h₆ := ⟨hP.frame h.1 h₁ h₂ h₃ h₄ h₅ h₆, hQ.frame h.2 h₁ h₂ h₃ h₄ h₅ h₆⟩

namespace Stable

variable [Scalar α] (hP : Stable P)
include hP

theorem reviseAndQueue (change : Key → Row α → Option (Row α)) (h : P t) :
    P (t.reviseAndQueue change) :=
  hP.frame (hP.revise change h) rfl rfl rfl rfl rfl rfl

omit [Scalar α] in
theorem modifyObjective_if (c : Prop) [Decidable c] (f : Row α → Row α) (h : P t) :
    P (if c then t.modifyObjective f else t) := by
  split
  · exact hP.modifyObjective f h
  · exact h

theorem eliminate (k : Key) (row : Row α) (h : P t) : P (t.eliminate k row) :=
  hP.frame (hP.modifyObjective_if _ _ (hP.reviseAndQueue _ h)) rfl rfl rfl rfl rfl Option.isSome_map

omit [Scalar α] in
theorem dropColumn (k : Key) (h : P t) : P (t.dropColumn k) :=
  hP.modifyObjective_if _ _ (hP.revise _ h)

theorem enqueue (k : Key) (row : Row α) (h : P t) : P (t.enqueue k row) := by
  unfold Tableau.enqueue
  split
  · exact hP.frame h rfl rfl rfl rfl rfl rfl
  · exact h

theorem enter (k : Key) (row : Row α) (h : P t) : P (t.enter k row) :=
  hP.putRow k row (hP.enqueue k row (hP.eliminate k row h))

theorem pivot (entering leaving : Key) (h : P t) : P (t.pivot entering leaving) := by
  unfold Tableau.pivot
  split
  · exact hP.frame (hP.enter _ _ (hP.eraseRow _ h)) rfl rfl rfl rfl rfl rfl
  · exact h

theorem dropPrice (error : Key) (s : Strength α) (h : P t) : P (t.dropPrice error s) := by
  unfold Tableau.dropPrice
  split <;> exact hP.modifyObjective _ h

theorem dropPrices (errors : List Key) (s : Strength α) (h : P t) :
    P (errors.foldl (·.dropPrice · s) t) := by
  induction errors generalizing t with
  | nil => exact h
  | cons error rest ih => exact ih (hP.dropPrice error s h)

theorem dropMarker (marker : Key) (h : P t) : P (t.dropMarker marker) := by
  unfold Tableau.dropMarker
  split
  · exact hP.eraseRow _ h
  · split
    · exact hP.eraseRow _ (hP.pivot _ _ h)
    · exact h

/-! ### The simplex methods -/

/-- Each pivot of a method keeps the property, and so does the method, wherever it stops. -/
theorem iterate {rule : Tableau α → Choice × Tableau α} (hrule : ∀ t, P t → P (rule t).2)
    (limit budget : Nat) : Keeps (Tableau.iterate rule limit budget) P := by
  have hnext : ∀ {t t' choice}, P t → rule t = (choice, t') → P t' := fun h heq => by
    have := hrule _ h
    rwa [heq] at this
  exact fun t h => ensures_iterate (P := P) hnext hnext
    (fun h heq => hP.pivot _ _ (hnext h heq)) hnext budget h

theorem optimize (target : Target) : Keeps (Tableau.optimize target : Attempt (Tableau α) Unit) P :=
  fun t h => hP.iterate (fun t h => by unfold primalRule; split <;> [exact h; split <;> exact h])
    t.maxIterations t.maxIterations t h

theorem dualOptimize : Keeps (Tableau.dualOptimize : Attempt (Tableau α) Unit) P :=
  fun t h => hP.iterate
    (fun t h => by
      unfold dualRule
      split
      · exact hP.frame h rfl rfl rfl rfl rfl rfl
      · dsimp only
        split <;> exact hP.frame h rfl rfl rfl rfl rfl rfl)
    t.maxIterations t.maxIterations t h

theorem solve : Keeps (Tableau.solve : Attempt (Tableau α) Unit) P :=
  (hP.optimize _).bind fun _ => hP.dualOptimize.bind fun _ =>
    keeps_modify fun _ h => hP.frame h rfl rfl rfl rfl rfl rfl

theorem finish (defer : Bool) : Keeps (Tableau.finish defer : Attempt (Tableau α) Unit) P :=
  fun t h =>
    ensures_finish_of (fun _ _ => hP.frame h rfl rfl rfl rfl rfl rfl) fun _ => hP.solve t h

/-! ### Insertion -/

omit [Scalar α] in
theorem newSymbol (kind : Kind) : Keeps (Tableau.newSymbol kind : Attempt (Tableau α) Key) P := by
  intro t h
  unfold Ensures Tableau.newSymbol
  cases Key.allocate kind false t.nextId with
  | ok k => exact hP.frame h rfl rfl rfl rfl rfl rfl
  | error cause => exact h

theorem setPrice (error : Key) (s : Strength α) : Keeps (Tableau.setPrice error s) P :=
  keeps_modify fun _ h => hP.modifyObjective _ h

theorem addMarkers (row : Row α) (relation : Relation) (s : Strength α) :
    Keeps (Tableau.addMarkers row relation s) P := by
  unfold Tableau.addMarkers
  split
  · exact (hP.newSymbol _).bind fun _ => keeps_pure _
  · exact (hP.newSymbol _).bind fun _ => (hP.newSymbol _).bind fun _ =>
      (hP.setPrice _ s).bind fun _ => keeps_pure _
  · exact (hP.newSymbol _).bind fun _ => keeps_pure _
  · exact (hP.newSymbol _).bind fun _ => (hP.newSymbol _).bind fun _ =>
      (hP.setPrice _ s).bind fun _ => (hP.setPrice _ s).bind fun _ => keeps_pure _

theorem createRow (c : Constraint α) (s : Strength α) : Keeps (Tableau.createRow c s) P :=
  (hP.addMarkers _ _ s).bind fun _ => keeps_get.bind fun _ => keeps_pure _

theorem retireArtificial (artificial : Key) :
    Keeps (Tableau.retireArtificial artificial : Attempt (Tableau α) Unit) P := by
  intro t h
  have herased := hP.eraseRow artificial h
  exact ensures_retireArtificial_of (fun _ => h) (fun _ _ _ => herased) (fun _ _ _ => herased)
    fun _ _ _ _ => hP.putRow _ _ (hP.eliminate _ _ herased)

theorem prepareFor (row : Row α) (handle : Handle) : Keeps (Tableau.prepareFor row handle) P :=
  fun t h => ensures_prepareFor_of (fun _ => h) fun _ _ => hP.solve t h

end Stable

/-- Undoing leads to the tableau `t₀`, and no artificial objective is left over. -/
def RecoversTo (t t₀ : Tableau α) : Prop := t.UndoesTo t₀ ∧ t.artificial = none

theorem stable_recoversTo (t₀ : Tableau α) : Stable (RecoversTo · t₀) :=
  (stable_undoesTo t₀).and stable_artificial

variable [Scalar α]

theorem keeps_addWithArtificial (row : Row α) :
    Keeps (addWithArtificial row) (RecoversTo · t₀) := by
  have hstable := stable_recoversTo t₀
  apply (hstable.newSymbol _).bind
  intro artificial t h
  rw [ensures_bind, ensures_modify]
  have hput : UndoesTo { t.putRow artificial row with artificial := some row } t₀ :=
    (h.1.putRow artificial row).of_eq rfl rfl rfl rfl rfl
  have hminimize : Ensures minimizeArtificial
      { t.putRow artificial row with artificial := some row }
      (fun _ t => t.RecoversTo t₀) fun _ t => t.RecoversTo t₀ := by
    rw [ensures_minimizeArtificial_iff]
    exact ((stable_undoesTo t₀).optimize .artificial _ hput).imp
      (fun _ _ h => ⟨h.of_eq rfl rfl rfl rfl rfl, rfl⟩)
      fun _ _ h => ⟨h.of_eq rfl rfl rfl rfl rfl, rfl⟩
  refine (ensures_bind _).mpr (hminimize.imp (fun residual t h => ?_) fun _ _ => id)
  rw [ensures_bind, ensures_get]
  split
  · exact h
  · exact ((hstable.retireArtificial artificial).bind fun _ =>
      keeps_modify fun _ h => hstable.dropColumn artificial h) t h

theorem keeps_insertRow (row : Row α) (handle : Handle) :
    Keeps (insertRow row handle) (RecoversTo · t₀) := by
  have hstable := stable_recoversTo t₀
  intro t h
  exact ensures_insertRow_of (hstable.prepareFor row handle t h)
    (fun _ _ _ h _ => hstable.enter _ _ h) (fun _ _ h _ _ _ => h)
    (fun _ _ h _ _ _ => hstable.enter _ _ h) fun row t h _ _ => keeps_addWithArtificial row t h

/-- An insertion can be undone wherever it stops. -/
theorem keeps_addConstraint (c : Constraint α) (s : Strength α) (defer : Bool) :
    Keeps (addConstraint c s defer) (RecoversTo · t₀) :=
  ((stable_recoversTo t₀).createRow c s).bind fun _ => (keeps_insertRow _ _).bind fun _ =>
    ((stable_recoversTo t₀).finish defer).bind fun _ => keeps_pure _

/-- A removal can be undone wherever it stops. -/
theorem keeps_removeConstraint (handle : Handle) (s : Strength α) (defer : Bool) :
    Keeps (removeConstraint handle s defer) (RecoversTo · t₀) := by
  have hstable := stable_recoversTo t₀
  intro t h
  exact ensures_removeConstraint_of
    (hstable.finish defer _ (hstable.dropMarker _ (hstable.dropPrices _ s h)))

/-- Moving a target can be undone wherever it stops. -/
theorem keeps_suggest (handle : Handle) (delta : α) :
    Keeps (suggest handle delta) (RecoversTo · t₀) := by
  have hstable := stable_recoversTo t₀
  intro t h
  exact ensures_suggest_of (fun _ => h) (fun _ => hstable.solve t h) (fun _ h _ => h)
    fun _ _ h _ => hstable.dualOptimize _ (hstable.reviseAndQueue _ h)

end Operations

end Tableau

end Cassowary
