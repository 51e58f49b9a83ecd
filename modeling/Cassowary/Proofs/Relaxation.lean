import Cassowary.Proofs.Batching
import Cassowary.Proofs.Loops
import Cassowary.Proofs.Transactions

/-!
# A larger limit and notes for undoing change nothing

Two solvers get the same operations. The second one allows more pivots, and the two may differ in
whether they undo failures, so that one of them notes its changes and the other one does not. As
long as nothing fails in the tableau of the first one, they cannot be told apart.

Both run the same code on tableaux that differ in the limit and in the notes alone. Nothing but the
loops of the simplex methods asks for the limit, and they ask only when there is a pivot to be made;
nothing but undoing asks for the notes.

## Main definitions

* `Attempt.Follows` — where one attempt succeeds, another one does with the same result
* `Attempt.Agree` — two attempts have the same result, or the same error
* `Tableau.Relaxes` — the same tableau but for a limit that is at least as large, and the notes
* `Solver.Relaxes` — the same solver but for these, its configuration, and the snapshot of a batch
* `Solver.Smooth` — no operation of a run fails in the tableau

## Main results

* `Tableau.Relaxes.iterate` — a loop that comes to its end within the limit
* `Solver.Relaxes.perform`, `Solver.Relaxes.run` — one operation, and a run
* `Solver.run_relaxed` — two runs from empty solvers
-/

namespace Cassowary

/-! ## Attempts side by side -/

namespace Attempt

variable {σ β γ : Type} {R : σ → σ → Prop} {action action' : Attempt σ β} {s s' u u' : σ}

/-- If the first attempt succeeds, so does the second one, with the same result, and the states that
they end in are related. -/
def Follows (R : σ → σ → Prop) (action : Attempt σ β) (s : σ) (action' : Attempt σ β) (s' : σ) :
    Prop :=
  ∀ b u, action s = .ok b u → ∃ u', action' s' = .ok b u' ∧ R u u'

theorem follows_pure {b : β} (h : R s s') : Follows R (pure b) s (pure b) s' := by
  intro _ _ hok
  cases hok
  exact ⟨s', rfl, h⟩

theorem follows_throw {cause : SolverError} : Follows R (throw cause) s action' s' :=
  fun _ _ hok => nomatch hok

theorem follows_set (h : R u u') : Follows R (set u) s (set u') s' := by
  intro _ _ hok
  cases hok
  exact ⟨u', rfl, h⟩

theorem follows_modify {f : σ → σ} (h : R (f s) (f s')) :
    Follows R (modify f) s (modify f) s' := by
  intro _ _ hok
  cases hok
  exact ⟨f s', rfl, h⟩

theorem follows_get_bind {f f' : σ → Attempt σ β} :
    Follows R (get >>= f) s (get >>= f') s' ↔ Follows R (f s) s (f' s') s' := Iff.rfl

theorem follows_set_bind {f f' : PUnit → Attempt σ β} :
    Follows R (set u >>= f) s (set u' >>= f') s' ↔ Follows R (f ⟨⟩) u (f' ⟨⟩) u' := Iff.rfl

theorem Follows.bind {f f' : β → Attempt σ γ} (h : Follows R action s action' s')
    (hf : ∀ b u u', R u u' → Follows R (f b) u (f' b) u') :
    Follows R (action >>= f) s (action' >>= f') s' := by
  intro c v hok
  simp only [Bind.bind, EStateM.bind] at hok ⊢
  cases hresult : action s with
  | error cause u =>
    rw [hresult] at hok
    cases hok
  | ok b u =>
    obtain ⟨u', hresult', hu⟩ := h b u hresult
    rw [hresult] at hok
    rw [hresult']
    exact hf b u u' hu c v hok

/-- Two attempts have the same result, or fail for the same cause, and the states that they end in
are related. -/
def Agree (R : σ → σ → Prop) (action : Attempt σ β) (s : σ) (action' : Attempt σ β) (s' : σ) :
    Prop :=
  (action'.outcome s').1 = (action.outcome s).1 ∧ R (action.outcome s).2 (action'.outcome s').2

theorem Agree.of_ok {b : β} (h : action s = .ok b u) (h' : action' s' = .ok b u') (hu : R u u') :
    Agree R action s action' s' := by
  unfold Agree outcome
  rw [h, h']
  exact ⟨rfl, hu⟩

theorem Agree.of_error {cause : SolverError} (h : action s = .error cause u)
    (h' : action' s' = .error cause u') (hu : R u u') : Agree R action s action' s' := by
  unfold Agree outcome
  rw [h, h']
  exact ⟨rfl, hu⟩

theorem agree_pure {b : β} (h : R s s') : Agree R (pure b) s (pure b) s' := ⟨rfl, h⟩

theorem agree_throw {cause : SolverError} (h : R s s') :
    Agree R (throw cause : Attempt σ β) s (throw cause) s' := ⟨rfl, h⟩

theorem agree_modify {f : σ → σ} (h : R (f s) (f s')) : Agree R (modify f) s (modify f) s' :=
  ⟨rfl, h⟩

theorem agree_get_bind {f f' : σ → Attempt σ β} :
    Agree R (get >>= f) s (get >>= f') s' ↔ Agree R (f s) s (f' s') s' := Iff.rfl

theorem Agree.bind {f f' : β → Attempt σ γ} (h : Agree R action s action' s')
    (hf : ∀ b u u', R u u' → Agree R (f b) u (f' b) u') :
    Agree R (action >>= f) s (action' >>= f') s' := by
  unfold Agree outcome at h ⊢
  simp only [Bind.bind, EStateM.bind]
  cases hresult : action s with
  | ok b u =>
    cases hresult' : action' s' with
    | ok b' u' =>
      rw [hresult, hresult'] at h
      obtain ⟨hb, hu⟩ := h
      cases hb
      exact hf b u u' hu
    | error cause' u' =>
      rw [hresult, hresult'] at h
      cases h.1
  | error cause u =>
    cases hresult' : action' s' with
    | ok b' u' =>
      rw [hresult, hresult'] at h
      cases h.1
    | error cause' u' =>
      rw [hresult, hresult'] at h
      obtain ⟨hcause, hu⟩ := h
      cases hcause
      exact ⟨rfl, hu⟩

theorem Agree.map {f : β → γ} (h : Agree R action s action' s') :
    Agree R (f <$> action) s (f <$> action') s' := by
  unfold Agree at h ⊢
  rw [outcome_map, outcome_map]
  exact ⟨congrArg (·.map f) h.1, h.2⟩

end Attempt

/-! ## Tableaux -/

namespace Tableau

open Attempt

variable {α : Type}

/-- The second tableau is the first one, but for a limit that is at least as large, and for what is
noted for undoing. -/
def Relaxes (t t' : Tableau α) : Prop :=
  ∃ limit journal, t.maxIterations ≤ limit ∧
    t' = { t with maxIterations := limit, journal := journal }

/-- A rule asks neither for the limit nor for the notes. -/
def Indifferent (rule : Tableau α → Choice × Tableau α) : Prop :=
  ∀ t t', t.Relaxes t' → (rule t').1 = (rule t).1 ∧ (rule t).2.Relaxes (rule t').2

variable [Scalar α] {t t' : Tableau α}

/-! ### Changes -/

namespace Relaxes

section Parts

omit [Scalar α]

theorem limit_le (h : t.Relaxes t') : t.maxIterations ≤ t'.maxIterations := by
  obtain ⟨_, _, hlimit, rfl⟩ := h
  exact hlimit

theorem rows_eq (h : t.Relaxes t') : t'.rows = t.rows := by
  obtain ⟨_, _, -, rfl⟩ := h
  rfl

theorem objective_eq (h : t.Relaxes t') : t'.objective = t.objective := by
  obtain ⟨_, _, -, rfl⟩ := h
  rfl

theorem infeasible_eq (h : t.Relaxes t') : t'.infeasible = t.infeasible := by
  obtain ⟨_, _, -, rfl⟩ := h
  rfl

theorem deferred_eq (h : t.Relaxes t') : t'.deferred = t.deferred := by
  obtain ⟨_, _, -, rfl⟩ := h
  rfl

theorem epsilon_eq (h : t.Relaxes t') : t'.epsilon = t.epsilon := by
  obtain ⟨_, _, -, rfl⟩ := h
  rfl

theorem isBasic_eq (h : t.Relaxes t') (k : Key) : t'.isBasic k = t.isBasic k :=
  congrArg (·.contains k) h.rows_eq

theorem withQueue (h : t.Relaxes t') (queue : List Key) :
    Relaxes { t with infeasible := queue } { t' with infeasible := queue } := by
  obtain ⟨limit, journal, hlimit, rfl⟩ := h
  exact ⟨limit, journal, hlimit, rfl⟩

theorem withDeferred (h : t.Relaxes t') (deferred : Bool) :
    Relaxes { t with deferred := deferred } { t' with deferred := deferred } := by
  obtain ⟨limit, journal, hlimit, rfl⟩ := h
  exact ⟨limit, journal, hlimit, rfl⟩

theorem withArtificial (h : t.Relaxes t') (artificial : Option (Row α)) :
    Relaxes { t with artificial := artificial } { t' with artificial := artificial } := by
  obtain ⟨limit, journal, hlimit, rfl⟩ := h
  exact ⟨limit, journal, hlimit, rfl⟩

end Parts

omit [Scalar α] in
theorem eraseRow (h : t.Relaxes t') (k : Key) : (t.eraseRow k).Relaxes (t'.eraseRow k) := by
  obtain ⟨limit, journal, hlimit, rfl⟩ := h
  unfold Tableau.eraseRow
  dsimp only
  cases t.rows.get? k with
  | none => exact ⟨limit, journal, hlimit, rfl⟩
  | some row => exact ⟨limit, _, hlimit, rfl⟩

omit [Scalar α] in
theorem putRow (h : t.Relaxes t') (k : Key) (row : Row α) :
    (t.putRow k row).Relaxes (t'.putRow k row) := by
  obtain ⟨limit, journal, hlimit, rfl⟩ := h
  exact ⟨limit, _, hlimit, rfl⟩

omit [Scalar α] in
theorem modifyObjective (h : t.Relaxes t') (f : Row α → Row α) :
    (t.modifyObjective f).Relaxes (t'.modifyObjective f) := by
  obtain ⟨limit, journal, hlimit, rfl⟩ := h
  exact ⟨limit, _, hlimit, rfl⟩

omit [Scalar α] in
theorem revise (h : t.Relaxes t') (change : Key → Row α → Option (Row α)) :
    (t.revise change).Relaxes (t'.revise change) := by
  obtain ⟨limit, journal, hlimit, rfl⟩ := h
  exact ⟨limit, _, hlimit, rfl⟩

theorem reviseAndQueue (h : t.Relaxes t') (change : Key → Row α → Option (Row α)) :
    (t.reviseAndQueue change).Relaxes (t'.reviseAndQueue change) := by
  obtain ⟨limit, journal, hlimit, rfl⟩ := h
  exact ⟨limit, _, hlimit, rfl⟩

omit [Scalar α] in
/-- A change of the objective that is made only if a key occurs in it. -/
theorem ite_modifyObjective (h : t.Relaxes t') (k : Key) (f : Row α → Row α) :
    (if t.objective.contains k then t.modifyObjective f else t).Relaxes
      (if t'.objective.contains k then t'.modifyObjective f else t') := by
  rw [h.objective_eq]
  split
  · exact h.modifyObjective f
  · exact h

theorem eliminate (h : t.Relaxes t') (k : Key) (row : Row α) :
    (t.eliminate k row).Relaxes (t'.eliminate k row) := by
  obtain ⟨limit, journal, hlimit, heq⟩ :=
    (h.reviseAndQueue fun _ other => other.substitute? (.unit k) row).ite_modifyObjective k
      (·.substitute (.unit k) row)
  unfold Tableau.eliminate
  dsimp only
  rw [heq]
  exact ⟨limit, journal, hlimit, rfl⟩

omit [Scalar α] in
theorem dropColumn (h : t.Relaxes t') (k : Key) : (t.dropColumn k).Relaxes (t'.dropColumn k) :=
  (h.revise _).ite_modifyObjective k _

theorem enqueue (h : t.Relaxes t') (k : Key) (row : Row α) :
    (t.enqueue k row).Relaxes (t'.enqueue k row) := by
  obtain ⟨limit, journal, hlimit, rfl⟩ := h
  unfold Tableau.enqueue violates
  dsimp only
  split
  · exact ⟨limit, journal, hlimit, rfl⟩
  · exact ⟨limit, journal, hlimit, rfl⟩

theorem enter (h : t.Relaxes t') (k : Key) (row : Row α) :
    (t.enter k row).Relaxes (t'.enter k row) :=
  ((h.eliminate k row).enqueue k row).putRow k row

theorem install (h : t.Relaxes t') (row : Row α) (k : Key) :
    (t.install row k).Relaxes (t'.install row k) :=
  h.enter k _

theorem pivot (h : t.Relaxes t') (entering leaving : Key) :
    (t.pivot entering leaving).Relaxes (t'.pivot entering leaving) := by
  unfold Tableau.pivot
  rw [h.rows_eq]
  cases t.rows.get? leaving with
  | none => exact h
  | some row =>
    obtain ⟨limit, journal, hlimit, heq⟩ :=
      (h.eraseRow leaving).enter entering (row.solveForPair leaving entering)
    dsimp only
    rw [heq]
    exact ⟨limit, journal, hlimit, rfl⟩

theorem dropPrice (h : t.Relaxes t') (error : Key) (s : Strength α) :
    (t.dropPrice error s).Relaxes (t'.dropPrice error s) := by
  unfold Tableau.dropPrice
  rw [h.rows_eq]
  cases t.rows.get? error with
  | none => exact h.modifyObjective _
  | some row => exact h.modifyObjective _

theorem dropPrices (h : t.Relaxes t') (errors : List Key) (s : Strength α) :
    (errors.foldl (·.dropPrice · s) t).Relaxes (errors.foldl (·.dropPrice · s) t') := by
  induction errors generalizing t t' with
  | nil => exact h
  | cons error rest ih => exact ih (h.dropPrice error s)

theorem dropMarker (h : t.Relaxes t') (marker : Key) :
    (t.dropMarker marker).Relaxes (t'.dropMarker marker) := by
  have hleaving : t'.markerLeaving? marker = t.markerLeaving? marker := by
    obtain ⟨_, _, -, rfl⟩ := h
    rfl
  unfold Tableau.dropMarker
  rw [h.isBasic_eq, hleaving]
  split
  · exact h.eraseRow marker
  · cases t.markerLeaving? marker with
    | none => exact h
    | some leaving => exact (h.pivot marker leaving).eraseRow marker

end Relaxes

/-! ### The loops -/

namespace Relaxes

variable {rule : Tableau α → Choice × Tableau α} {n : Nat}

/-- A rule that does not ask for the limit asks for the same pivots. -/
theorem afterPivots (hrule : Indifferent rule) (h : t.Relaxes t') {t₁ : Tableau α}
    (ht₁ : afterPivots rule n t = some t₁) :
    ∃ t₁', Tableau.afterPivots rule n t' = some t₁' ∧ t₁.Relaxes t₁' := by
  induction n generalizing t t' with
  | zero =>
    cases ht₁
    exact ⟨t', rfl, h⟩
  | succ n ih =>
    obtain ⟨hchoice, hchanged⟩ := hrule t t' h
    unfold Tableau.afterPivots at ht₁ ⊢
    split at ht₁
    · next entering leaving u hresult =>
      rw [hresult] at hchoice hchanged
      cases hresult' : rule t' with
      | mk choice' u' =>
        rw [hresult'] at hchoice hchanged
        cases hchoice
        exact ih (hchanged.pivot entering leaving) ht₁
    · cases ht₁

/-- A loop that comes to its end needs no more pivots with a larger limit. -/
theorem iterate (hrule : Indifferent rule) (h : t.Relaxes t') {budget budget' : Nat}
    (hbudget : budget ≤ budget') (limit limit' : Nat) :
    Follows Relaxes (iterate rule limit budget) t (Tableau.iterate rule limit' budget') t' := by
  intro _ u hok
  obtain ⟨n, hn, t₁, ht₁, hfinished⟩ := iterate_eq_ok_iff.mp hok
  obtain ⟨t₁', ht₁', hsame⟩ := h.afterPivots hrule ht₁
  obtain ⟨hchoice, hchanged⟩ := hrule t₁ t₁' hsame
  rw [hfinished] at hchoice hchanged
  exact ⟨(rule t₁').2, iterate_eq_ok_iff.mpr ⟨n, hn.trans hbudget, t₁', ht₁',
    Prod.ext hchoice rfl⟩, hchanged⟩

theorem indifferent_primalRule (target : Target) : Indifferent (primalRule (α := α) target) := by
  intro t t' h
  have hentering : (t'.targetRow target).bind t'.entering? =
      (t.targetRow target).bind t.entering? := by
    obtain ⟨_, _, -, rfl⟩ := h
    cases target <;> rfl
  have hleaving : ∀ k, t'.leaving? k = t.leaving? k := by
    obtain ⟨_, _, -, rfl⟩ := h
    exact fun _ => rfl
  unfold primalRule
  rw [hentering]
  cases (t.targetRow target).bind t.entering? with
  | none => exact ⟨rfl, h⟩
  | some entering =>
    dsimp only
    rw [hleaving]
    cases t.leaving? entering with
    | none => exact ⟨rfl, h⟩
    | some leaving => exact ⟨rfl, h⟩

theorem nextViolated_eq (h : t.Relaxes t') (queue : List Key) :
    t'.nextViolated queue = t.nextViolated queue := by
  induction queue with
  | nil => rfl
  | cons k rest ih => unfold nextViolated; rw [h.rows_eq, h.epsilon_eq, ih]

theorem indifferent_dualRule : Indifferent (dualRule (α := α)) := by
  intro t t' h
  have hentering : ∀ rest row, dualEntering? { t' with infeasible := rest } row =
      dualEntering? { t with infeasible := rest } row := by
    obtain ⟨_, _, -, rfl⟩ := h
    exact fun _ _ => rfl
  unfold dualRule
  rw [h.infeasible_eq, h.nextViolated_eq]
  cases t.nextViolated t.infeasible with
  | none => exact ⟨rfl, h.withQueue []⟩
  | some found =>
    obtain ⟨leaving, row, rest⟩ := found
    dsimp only
    rw [hentering]
    cases dualEntering? { t with infeasible := rest } row with
    | none => exact ⟨rfl, h.withQueue rest⟩
    | some entering => exact ⟨rfl, h.withQueue rest⟩

/-! ### The simplex methods -/

theorem optimize (h : t.Relaxes t') (target : Target) :
    Follows Relaxes (optimize target) t (Tableau.optimize target) t' :=
  h.iterate (indifferent_primalRule target) h.limit_le _ _

theorem dualOptimize (h : t.Relaxes t') :
    Follows Relaxes dualOptimize t Tableau.dualOptimize t' :=
  h.iterate indifferent_dualRule h.limit_le _ _

theorem solve (h : t.Relaxes t') : Follows Relaxes solve t Tableau.solve t' :=
  (h.optimize .objective).bind fun _ _ _ h => h.dualOptimize.bind fun _ _ _ h =>
    follows_modify (h.withDeferred false)

theorem finish (h : t.Relaxes t') (defer : Bool) :
    Follows Relaxes (finish defer) t (Tableau.finish defer) t' := by
  have hempty : (defer && t'.infeasible.isEmpty) = (defer && t.infeasible.isEmpty) := by
    rw [h.infeasible_eq]
  unfold Tableau.finish
  rw [follows_get_bind, hempty]
  split
  · exact follows_set (h.withDeferred true)
  · exact h.solve

/-! ### Insertion -/

omit [Scalar α] in
theorem newSymbol (h : t.Relaxes t') (kind : Kind) :
    Follows Relaxes (newSymbol kind) t (Tableau.newSymbol kind) t' := by
  obtain ⟨limit, journal, hlimit, rfl⟩ := h
  intro k u hok
  unfold Tableau.newSymbol at hok ⊢
  dsimp only at hok ⊢
  cases hkey : Key.allocate kind false t.nextId with
  | error cause =>
    rw [hkey] at hok
    cases hok
  | ok k' =>
    rw [hkey] at hok
    cases hok
    exact ⟨_, rfl, limit, journal, hlimit, rfl⟩

theorem setPrice (h : t.Relaxes t') (error : Key) (s : Strength α) :
    Follows Relaxes (setPrice error s) t (Tableau.setPrice error s) t' :=
  follows_modify (h.modifyObjective _)

theorem addMarkers (h : t.Relaxes t') (row : Row α) (relation : Relation) (s : Strength α) :
    Follows Relaxes (addMarkers row relation s) t (Tableau.addMarkers row relation s) t' := by
  unfold Tableau.addMarkers
  split
  · exact (h.newSymbol .slack).bind fun _ _ _ h => follows_pure h
  · exact (h.newSymbol .slack).bind fun _ _ _ h => (h.newSymbol .error).bind fun e _ _ h =>
      (h.setPrice e s).bind fun _ _ _ h => follows_pure h
  · exact (h.newSymbol .dummy).bind fun _ _ _ h => follows_pure h
  · exact (h.newSymbol .error).bind fun plus _ _ h => (h.newSymbol .error).bind fun minus _ _ h =>
      (h.setPrice plus s).bind fun _ _ _ h => (h.setPrice minus s).bind fun _ _ _ h =>
        follows_pure h

theorem substituteBasics_eq (h : t.Relaxes t') (row : Row α) :
    t'.substituteBasics row = t.substituteBasics row := by
  unfold substituteBasics
  rw [h.rows_eq]

theorem createRow (h : t.Relaxes t') (c : Constraint α) (s : Strength α) :
    Follows Relaxes (createRow c s) t (Tableau.createRow c s) t' := by
  refine (h.addMarkers (.ofConstraint c) c.relation s).bind fun made u u' hu => ?_
  rw [follows_get_bind, hu.substituteBasics_eq]
  exact follows_pure hu

theorem minimizeArtificial (h : t.Relaxes t') :
    Follows Relaxes minimizeArtificial t Tableau.minimizeArtificial t' := by
  intro residual u hok
  unfold Tableau.minimizeArtificial at hok ⊢
  cases hresult : Tableau.optimize .artificial t with
  | error cause t₁ =>
    rw [hresult] at hok
    cases hok
  | ok b t₁ =>
    obtain ⟨t₁', hresult', hsame⟩ := h.optimize .artificial b t₁ hresult
    rw [hresult] at hok
    cases hok
    have hvalue : t₁'.artificial = t₁.artificial := by
      obtain ⟨_, _, -, rfl⟩ := hsame
      rfl
    refine ⟨{ t₁' with artificial := none }, ?_, hsame.withArtificial none⟩
    rw [hresult', ← hvalue]

theorem retireArtificial (h : t.Relaxes t') (artificial : Key) :
    Follows Relaxes (retireArtificial artificial) t (Tableau.retireArtificial artificial) t' := by
  unfold Tableau.retireArtificial
  rw [follows_get_bind, h.rows_eq]
  cases t.rows.get? artificial with
  | none => exact follows_pure h
  | some row =>
    dsimp only
    rw [follows_set_bind]
    split
    · exact follows_pure (h.eraseRow artificial)
    · cases row.anyPivotable with
      | none => exact follows_throw
      | some entering =>
        exact follows_set (((h.eraseRow artificial).eliminate entering _).putRow entering _)

theorem addWithArtificial (h : t.Relaxes t') (row : Row α) :
    Follows Relaxes (addWithArtificial row) t (Tableau.addWithArtificial row) t' := by
  refine (h.newSymbol .artificial).bind fun artificial _ _ h => ?_
  refine (follows_modify ((h.putRow artificial row).withArtificial _)).bind fun _ _ _ h => ?_
  refine h.minimizeArtificial.bind fun residual _ _ h => ?_
  rw [follows_get_bind, h.epsilon_eq]
  split
  · exact follows_throw
  · exact (h.retireArtificial artificial).bind fun _ _ _ h =>
      follows_modify (h.dropColumn artificial)

theorem prepareFor (h : t.Relaxes t') (row : Row α) (handle : Handle) :
    Follows Relaxes (prepareFor row handle) t (Tableau.prepareFor row handle) t' := by
  have hneeds : t'.needsRepair row (row.subject? handle) =
      t.needsRepair row (row.subject? handle) := by
    obtain ⟨_, _, -, rfl⟩ := h
    rfl
  unfold Tableau.prepareFor
  rw [follows_get_bind, h.deferred_eq, h.infeasible_eq, hneeds]
  split
  · refine h.solve.bind fun _ _ _ h => ?_
    rw [follows_get_bind, h.substituteBasics_eq]
    exact follows_pure h
  · exact follows_pure h

theorem insertRow (h : t.Relaxes t') (row : Row α) (handle : Handle) :
    Follows Relaxes (insertRow row handle) t (Tableau.insertRow row handle) t' := by
  refine (h.prepareFor row handle).bind fun row t t' h => ?_
  rw [follows_get_bind]
  split
  · exact follows_set (h.install row _)
  · rw [h.epsilon_eq]
    split
    · split
      · exact follows_throw
      · exact follows_set (h.install row _)
    · exact h.addWithArtificial row

theorem addConstraint (h : t.Relaxes t') (c : Constraint α) (s : Strength α) (defer : Bool) :
    Follows Relaxes (addConstraint c s defer) t (Tableau.addConstraint c s defer) t' :=
  (h.createRow c s).bind fun made _ _ h => (h.insertRow made.1 made.2).bind fun _ _ _ h =>
    (h.finish defer).bind fun _ _ _ h => follows_pure h

/-! ### Removal and moved targets -/

theorem removeConstraint (h : t.Relaxes t') (handle : Handle) (s : Strength α) (defer : Bool) :
    Follows Relaxes (removeConstraint handle s defer) t
      (Tableau.removeConstraint handle s defer) t' := by
  unfold Tableau.removeConstraint
  rw [follows_get_bind, follows_set_bind]
  exact ((h.dropPrices _ s).dropMarker handle.marker).finish defer

theorem targetShift_eq (h : t.Relaxes t') (plus minus : Key) (delta : α) :
    t'.targetShift plus minus delta = t.targetShift plus minus delta := by
  obtain ⟨_, _, -, rfl⟩ := h
  rfl

theorem suggest (h : t.Relaxes t') (handle : Handle) (delta : α) :
    Follows Relaxes (suggest handle delta) t (Tableau.suggest handle delta) t' := by
  unfold Tableau.suggest
  rw [follows_get_bind, h.deferred_eq]
  cases handle.other with
  | none =>
    dsimp only
    split
    · exact h.solve.bind fun _ _ _ h => follows_pure h
    · exact follows_pure h
  | some minus =>
    have hmove : ∀ {t t' : Tableau α}, t.Relaxes t' →
        Follows Relaxes (do
          modify fun t => t.shift (t.targetShift handle.marker minus delta)
          Tableau.dualOptimize) t (do
          modify fun t => t.shift (t.targetShift handle.marker minus delta)
          Tableau.dualOptimize) t' := fun {t t'} h => by
      have hshift : Relaxes (t.shift (t.targetShift handle.marker minus delta))
          (t'.shift (t'.targetShift handle.marker minus delta)) := by
        rw [h.targetShift_eq]
        exact h.reviseAndQueue _
      exact (follows_modify hshift).bind fun _ _ _ h => h.dualOptimize
    dsimp only
    split
    · exact h.solve.bind fun _ _ _ h => hmove h
    · exact hmove h

end Relaxes

end Tableau

/-! ## Solvers -/

namespace Solver

open Attempt

variable {α : Type}

/-- The second solver is the first one, but for a limit that is at least as large, for what is noted
for undoing, and for the settings. -/
structure Relaxes (s s' : Solver α) : Prop where
  tableau : s.state.tableau.Relaxes s'.state.tableau
  constraints : s'.state.constraints = s.state.constraints
  edits : s'.state.edits = s.state.edits
  references : s'.state.references = s.state.references
  isBatching : s'.isBatching = s.isBatching
  poisoned : s'.poisoned = s.poisoned
  insertions : s'.insertions = s.insertions
  removals : s'.removals = s.removals
  failures : s'.failures = s.failures

variable [Scalar α] {s s' : Solver α} {o : Operation α} {os : List (Operation α)}

/-- A batch that is closed without a failure. -/
theorem closeBatch_of_solve {b : Batch α} {t : Tableau α} {done : Unit} (hb : s.batch = some b)
    (hsolve : Tableau.solve s.state.tableau = .ok done t) :
    closeBatch s =
      .ok () { s with batch := none, state := { s.state with tableau := t } } := by
  unfold closeBatch
  rw [hb]
  dsimp only
  rw [hsolve]

namespace Relaxes

omit [Scalar α] in
/-- An operation starts from related tableaux, whether its changes are noted or not. -/
theorem opening (h : s.Relaxes s') : s.opening.Relaxes s'.opening := by
  obtain ⟨limit, journal, hlimit, heq⟩ := h.tableau
  rcases s.opening_cases with hopening | hopening <;>
    rcases s'.opening_cases with hopening' | hopening' <;>
      rw [hopening, hopening', heq] <;> exact ⟨limit, _, hlimit, rfl⟩

omit [Scalar α] in
/-- An operation on the tableau that does not fail has the same result in both solvers. -/
theorem exists_guarded (h : s.Relaxes s') {β : Type} {operation : Attempt (Tableau α) β}
    (hoperation : ∀ {t t'}, t.Relaxes t' → Follows Tableau.Relaxes operation t operation t')
    (hfails : operation.fails s.opening = false) :
    ∃ b u u', guarded operation s = .ok b u ∧ guarded operation s' = .ok b u' ∧ u.Relaxes u' := by
  unfold Attempt.fails at hfails
  cases hresult : operation s.opening with
  | error cause t =>
    rw [hresult] at hfails
    cases hfails
  | ok b t =>
    obtain ⟨t', hresult', limit, journal, hlimit, rfl⟩ := hoperation h.opening b t hresult
    refine ⟨b, _, _, by rw [guarded_eq, hresult], by rw [guarded_eq, hresult'], ?_⟩
    exact { h with tableau := ⟨limit, none, hlimit, rfl⟩ }

omit [Scalar α] in
theorem register (h : s.Relaxes s') (handle : Handle) (r : Record α) :
    Relaxes { s with state := s.state.register handle r, insertions := s.insertions + 1 }
      { s' with state := s'.state.register handle r, insertions := s'.insertions + 1 } :=
  { h with
    constraints := congrArg (·.insert handle r) h.constraints
    references := congrArg (r.constraint.keys.foldl State.refer ·) h.references
    insertions := congrArg (· + 1) h.insertions }

omit [Scalar α] in
theorem unregister (h : s.Relaxes s') (handle : Handle) :
    Relaxes { s with state := s.state.unregister handle, removals := s.removals + 1 }
      { s' with state := s'.state.unregister handle, removals := s'.removals + 1 } := by
  unfold State.unregister
  rw [h.constraints]
  cases s.state.constraints.get? handle with
  | none => exact { h with removals := congrArg (· + 1) h.removals }
  | some r =>
    exact { h with
      constraints := rfl
      references := congrArg (r.constraint.keys.foldl State.unrefer ·) h.references
      edits := congrArg (·.filter fun _ e => e.handle ≠ handle) h.edits
      removals := congrArg (· + 1) h.removals }

omit [Scalar α] in
/-- The edit variables change alike. -/
theorem mapEdits (h : s.Relaxes s')
    (f : Table Variable (Edit α) → Table Variable (Edit α)) :
    Relaxes { s with state := { s.state with edits := f s.state.edits } }
      { s' with state := { s'.state with edits := f s'.state.edits } } :=
  { h with edits := congrArg f h.edits }

theorem clear (h : s.Relaxes s') : s.clear.Relaxes s'.clear := by
  have hepsilon : s'.clear.state.tableau = { s.clear.state.tableau with
      maxIterations := s'.state.tableau.maxIterations, journal := none } := by
    show Tableau.empty _ _ = _
    rw [h.tableau.epsilon_eq]
    rfl
  exact ⟨⟨_, _, h.tableau.limit_le, hepsilon⟩, rfl, rfl, rfl, rfl, rfl, h.insertions, h.removals,
    h.failures⟩

theorem read_eq (h : s.Relaxes s') (x : Variable) : s'.read x = s.read x := by
  unfold read
  rw [h.poisoned, h.tableau.rows_eq, h.references]

omit [Scalar α] in
theorem isEdit_eq (h : s.Relaxes s') (x : Variable) : s'.isEdit x = s.isEdit x := by
  unfold isEdit
  rw [h.edits]

/-! ### Operations -/

theorem insert (h : s.Relaxes s') {c : Constraint α} {w : Strength α}
    (hfails : (Tableau.addConstraint c w s.isBatching).fails s.opening = false) :
    Agree Relaxes (insert c w) s (Solver.insert c w) s' := by
  unfold Solver.insert
  rw [agree_get_bind, h.isBatching]
  obtain ⟨handle, u, u', hok, hok', hu⟩ :=
    h.exists_guarded (fun ht => ht.addConstraint c w s.isBatching) hfails
  exact (Agree.of_ok hok hok' hu).bind fun handle _ _ h =>
    (agree_modify (h.register handle ⟨c, w⟩)).bind fun _ _ _ h => agree_pure h

theorem remove (h : s.Relaxes s') {handle : Handle}
    (hfails : ∀ r, s.state.constraints.get? handle = some r →
      (Tableau.removeConstraint handle r.strength s.isBatching).fails s.opening = false) :
    Agree Relaxes (remove handle) s (Solver.remove handle) s' := by
  have hget : s'.state.constraints.get? handle = s.state.constraints.get? handle := by
    rw [h.constraints]
  cases hr : s.state.constraints.get? handle with
  | none =>
    rw [hr] at hget
    refine Agree.of_ok (b := false) ?_ ?_ h <;> unfold Solver.remove
    · rw [hr]
    · rw [hget]
  | some r =>
    rw [hr] at hget
    obtain ⟨_, u, u', hok, hok', hu⟩ := h.exists_guarded
      (fun ht => ht.removeConstraint handle r.strength s.isBatching) (hfails r hr)
    refine Agree.of_ok (b := true) ?_ ?_ (hu.unregister handle) <;> unfold Solver.remove
    · rw [hr]
      dsimp only
      rw [hok]
    · rw [hget]
      dsimp only
      rw [h.isBatching, hok']

theorem startEdit (h : s.Relaxes s') {x : Variable} {w : Strength α}
    (hfails : s.isEdit x = false → w.isRequired = false →
      (Tableau.addConstraint (x.heldAt ((s.read x).getD 0)) w s.isBatching).fails s.opening =
        false) :
    Agree Relaxes (startEdit x w) s (Solver.startEdit x w) s' := by
  unfold Solver.startEdit
  rw [agree_get_bind, h.isEdit_eq, h.read_eq]
  cases hedit : s.isEdit x with
  | true => exact agree_throw h
  | false =>
    cases hrequired : w.isRequired with
    | true => exact agree_throw h
    | false =>
      exact (h.insert (hfails hedit hrequired)).bind fun handle _ _ h =>
        agree_modify (h.mapEdits (·.insert x ⟨handle, (s.read x).getD 0⟩))

theorem stopEdit (h : s.Relaxes s') {x : Variable}
    (hfails : ∀ e, s.state.edits.get? x = some e → ∀ r,
      s.state.constraints.get? e.handle = some r →
        (Tableau.removeConstraint e.handle r.strength s.isBatching).fails s.opening = false) :
    Agree Relaxes (stopEdit x) s (Solver.stopEdit x) s' := by
  unfold Solver.stopEdit
  rw [agree_get_bind, h.edits]
  cases he : s.state.edits.get? x with
  | none => exact agree_throw h
  | some e =>
    refine (h.remove (hfails e he)).bind fun gone _ _ h => ?_
    cases gone with
    | false => exact agree_throw h
    | true => exact agree_modify (h.mapEdits (·.erase x))

theorem suggest (h : s.Relaxes s') {x : Variable} {target : α}
    (hfails : ∀ e, s.state.edits.get? x = some e →
      (Tableau.suggest e.handle (target - e.target)).fails s.opening = false) :
    Agree Relaxes (suggest x target) s (Solver.suggest x target) s' := by
  unfold Solver.suggest
  rw [agree_get_bind, h.edits]
  cases he : s.state.edits.get? x with
  | none => exact agree_throw h
  | some e =>
    obtain ⟨_, u, u', hok, hok', hu⟩ :=
      h.exists_guarded (fun ht => ht.suggest e.handle (target - e.target)) (hfails e he)
    exact (Agree.of_ok hok hok' hu).bind fun _ _ _ h => agree_modify
      (h.mapEdits (·.alter x fun e => e.map ({ · with target := target })))

omit [Scalar α] in
theorem openBatch (h : s.Relaxes s') : Agree Relaxes openBatch s Solver.openBatch s' := by
  unfold Solver.openBatch
  rw [agree_get_bind, h.isBatching]
  cases s.isBatching with
  | true => exact agree_throw h
  | false => exact ⟨rfl, { h with isBatching := rfl }⟩

theorem closeBatch (h : s.Relaxes s')
    (hfails : s.isBatching = true → Tableau.solve.fails s.state.tableau = false) :
    Agree Relaxes closeBatch s Solver.closeBatch s' := by
  have hbatching : s'.batch.isSome = s.batch.isSome := h.isBatching
  cases hb : s.batch with
  | none =>
    rw [hb] at hbatching
    have hb' := Option.isNone_iff_eq_none.mp (Option.isSome_eq_false_iff.mp hbatching)
    have hrefused : ∀ s : Solver α, s.batch = none →
        Solver.closeBatch s = .error .noBatch s := fun s hs => by
      unfold Solver.closeBatch
      rw [hs]
    exact .of_error (hrefused s hb) (hrefused s' hb') h
  | some b =>
    rw [hb] at hbatching
    obtain ⟨b', hb'⟩ := Option.isSome_iff_exists.mp hbatching
    have hfails := hfails (by rw [Solver.isBatching, hb, Option.isSome_some])
    unfold Attempt.fails at hfails
    cases hresult : Tableau.solve s.state.tableau with
    | error cause t =>
      rw [hresult] at hfails
      cases hfails
    | ok _ t =>
      -- Where the smaller limit is not hit, the greater one is not
      obtain ⟨t', hresult', ht⟩ := h.tableau.solve _ t hresult
      exact Agree.of_ok (closeBatch_of_solve hb hresult) (closeBatch_of_solve hb' hresult')
        { h with tableau := ht, isBatching := rfl }

/-- An operation that does not fail in the tableau of the one is answered alike by both. -/
theorem perform (h : s.Relaxes s') (ho : s.failsInTableau o = false) :
    Agree Relaxes (perform o) s (Solver.perform o) s' := by
  cases o with
  | insert c w => exact (h.insert ho).map
  | remove handle =>
    refine (h.remove fun r hr => ?_).map
    rwa [failsInTableau, hr, Option.any_some] at ho
  | startEdit x w =>
    refine (h.startEdit fun hedit hrequired => ?_).bind fun _ _ _ h => agree_pure h
    rwa [failsInTableau, hedit, hrequired] at ho
  | stopEdit x =>
    refine (h.stopEdit fun e he r hr => ?_).bind fun _ _ _ h => agree_pure h
    rwa [failsInTableau, he, Option.any_some, hr, Option.any_some] at ho
  | suggest x target =>
    refine (h.suggest fun e he => ?_).bind fun _ _ _ h => agree_pure h
    rwa [failsInTableau, he, Option.any_some] at ho
  | openBatch => exact h.openBatch.bind fun _ _ _ h => agree_pure h
  | closeBatch =>
    refine (h.closeBatch fun hopen => ?_).bind fun _ _ _ h => agree_pure h
    rwa [failsInTableau, hopen, Bool.true_and] at ho
  | clear => exact (agree_modify h.clear).bind fun _ _ _ h => agree_pure h

end Relaxes

/-! ### Runs -/

/-- No operation of a run fails in the tableau. -/
def Smooth (s : Solver α) : List (Operation α) → Prop
  | [] => True
  | o :: os => s.failsInTableau o = false ∧ Smooth (s.step o).2 os

instance decidableSmooth (s : Solver α) : (os : List (Operation α)) → Decidable (s.Smooth os)
  | [] => isTrue trivial
  | o :: os =>
    have := decidableSmooth (s.step o).2 os
    inferInstanceAs (Decidable (_ ∧ _))

theorem smooth_append {os' : List (Operation α)} :
    s.Smooth (os ++ os') ↔ s.Smooth os ∧ (s.run os).Smooth os' := by
  induction os generalizing s with
  | nil => exact (true_and _).symm ▸ Iff.rfl
  | cons o os ih => exact (and_congr_right fun _ => ih).trans and_assoc.symm

/-- A run in which nothing fails in the tableau of the one is answered alike by both. -/
theorem Relaxes.run (h : s.Relaxes s') (hos : s.Smooth os) :
    s'.answers os = s.answers os ∧ (s.run os).Relaxes (s'.run os) := by
  induction os generalizing s s' with
  | nil => exact ⟨rfl, h⟩
  | cons o os ih =>
    obtain ⟨hanswer, hstep⟩ := h.perform hos.1
    obtain ⟨hanswers, hrun⟩ := ih hstep hos.2
    exact ⟨congrArg₂ (· :: ·) hanswer hanswers, hrun⟩

theorem relaxes_ofConfig {config config' : Config α} (hepsilon : config'.epsilon = config.epsilon)
    (hlimit : config.maxIterations ≤ config'.maxIterations) :
    (ofConfig config).Relaxes (ofConfig config') := by
  have hempty : (State.empty config').tableau = { (State.empty config).tableau with
      maxIterations := config'.maxIterations, journal := none } := by
    show Tableau.empty _ _ = _
    rw [hepsilon]
    rfl
  exact ⟨⟨_, _, hlimit, hempty⟩, rfl, rfl, rfl, rfl, rfl, rfl, rfl, rfl⟩

/-- The solver with other settings, and with another snapshot for an open batch. -/
def withSettings (s : Solver α) (config : Config α) (batch : Option (Batch α)) : Solver α :=
  { s with
    config := config
    state := { s.state with
      tableau := { s.state.tableau with maxIterations := config.maxIterations } }
    batch := batch }

omit [Scalar α] in
/-- Between operations nothing is noted, so that related solvers differ in their settings and in
what an open batch goes back to. -/
theorem Relaxes.eq_withSettings {config config' : Config α} (h : s.Relaxes s')
    (hrest : s.AtRest config) (hrest' : s'.AtRest config') :
    s' = s.withSettings config' s'.batch := by
  obtain ⟨settings, ⟨tableau, constraints, edits, references⟩, batch, poisoned, insertions,
    removals, failures⟩ := s'
  obtain rfl : settings = config' := hrest'.config_eq
  obtain ⟨⟨limit, journal, -, rfl⟩, rfl, rfl, rfl, -, rfl, rfl, rfl, rfl⟩ := h
  have hlimit : limit = settings.maxIterations := hrest'.tableau.maxIterations
  have hjournal : journal = s.state.tableau.journal :=
    hrest'.tableau.journal.trans hrest.tableau.journal.symm
  rw [hlimit, hjournal]
  rfl

/-- Whatever the arithmetic is, and whether failures are undone or not: if no operation of a run
fails in the tableau under the one configuration, the run has the same answers under another one
with the same tolerance and a limit that is at least as large. All along, the solvers differ in
their settings and in what an open batch goes back to, and tell the same.

What makes the difference between limits is exact: a simplex method that fails for the limit has
made as many pivots, and one that needs as many succeeds. -/
theorem run_relaxed {config config' : Config α} (hepsilon : config'.epsilon = config.epsilon)
    (hlimit : config.maxIterations ≤ config'.maxIterations) (hos : (ofConfig config).Smooth os) :
    (ofConfig config').answers os = (ofConfig config).answers os ∧
    (∀ pre, pre <+: os →
      (ofConfig config').run pre =
        ((ofConfig config).run pre).withSettings config' ((ofConfig config').run pre).batch ∧
      ((ofConfig config').run pre).isBatching = ((ofConfig config).run pre).isBatching ∧
      (∀ h, ((ofConfig config').run pre).holds h = ((ofConfig config).run pre).holds h) ∧
      (∀ x, ((ofConfig config').run pre).isEdit x = ((ofConfig config).run pre).isEdit x) ∧
      (∀ x, ((ofConfig config').run pre).read x = ((ofConfig config).run pre).read x) ∧
      ((ofConfig config').run pre).stats = ((ofConfig config).run pre).stats ∧
      ∀ write, ((ofConfig config').run pre).dump write = ((ofConfig config).run pre).dump write) ∧
    (∀ target, Tableau.Limited (Tableau.optimize (α := α) target) (Tableau.primalRule target)) ∧
    Tableau.Limited (Tableau.dualOptimize (α := α)) Tableau.dualRule := by
  have hstart := relaxes_ofConfig hepsilon hlimit
  refine ⟨(hstart.run hos).1, ?_, Tableau.limited_optimize, Tableau.limited_dualOptimize⟩
  rintro pre ⟨post, rfl⟩
  have hsame := (hstart.run (smooth_append.mp hos).1).2
  have heq := hsame.eq_withSettings (Reachable.atRest ⟨pre, rfl⟩) (Reachable.atRest ⟨pre, rfl⟩)
  refine ⟨heq, hsame.isBatching, fun h => ?_, hsame.isEdit_eq, hsame.read_eq, ?_, fun write => ?_⟩
  · rw [heq]
    rfl
  · rw [heq]
    rfl
  · rw [heq]
    rfl

/-- Two edit variables whose sum is bounded. One of them makes room for a variable that comes in a
batch, and then the other one is moved beyond the bound. -/
def shared : List (Operation Rat) :=
  [.startEdit (.external 0) .strong, .startEdit (.external 1) .medium,
    .insert (.ofFormulas (.add (.var (.external 0)) (.var (.external 1))) .lessOrEqual (.number 10))
      .required,
    .openBatch,
    .insert ((Variable.external 2).heldAt 2) .weak,
    .insert (.ofFormulas (.var (.external 0)) .greaterOrEqual (.var (.external 2))) .medium,
    .closeBatch,
    .suggest (.external 0) 7, .suggest (.external 1) 20]

/-- No method needs more than one pivot, and some need one. -/
theorem run_relaxed_shared :
    ¬ (ofConfig ⟨0, true, 0⟩).Smooth shared ∧ (ofConfig ⟨0, true, 1⟩).Smooth shared ∧
    (ofConfig ⟨0, false, 1000⟩).answers shared = (ofConfig ⟨0, true, 1⟩).answers shared ∧
    ((ofConfig ⟨0, false, 1000⟩).run shared).read (.external 1) =
      ((ofConfig ⟨0, true, 1⟩).run shared).read (.external 1) ∧
    ((ofConfig ⟨0, false, 1000⟩).run shared).stats =
      ((ofConfig ⟨0, true, 1⟩).run shared).stats := by
  have hsmooth : (ofConfig ⟨0, true, 1⟩).Smooth shared := by decide +kernel
  have hrun := @run_relaxed Rat _ shared ⟨0, true, 1⟩ ⟨0, false, 1000⟩ rfl (by decide) hsmooth
  obtain ⟨-, -, -, -, hread, hstats, -⟩ := hrun.2.1 shared List.prefix_rfl
  exact ⟨by decide +kernel, hsmooth, hrun.1, hread _, hstats⟩

end Solver

end Cassowary
