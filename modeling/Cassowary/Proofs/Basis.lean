import Cassowary.Proofs.Atomicity
import Cassowary.Proofs.Books

/-!
# Basic variables stay on the left in every run

Every operation keeps a tableau separated, whether it succeeds, is refused or fails halfway, and
whatever the arithmetic is. What it needs to know of a constraint that goes is that its symbols have
been given out, which the books remember for every constraint that is held.

## Main definitions

* `Tableau.Apart` — a separated tableau that has given out the symbols below an index
* `Tableau.Mentions` — a key that occurs somewhere in a tableau
* `State.Apart` — a separated tableau, and books whose symbols have been given out

## Main results

* `Tableau.ensures_addConstraint_apart`, `Tableau.ensures_removeConstraint_apart`,
  `Tableau.keeps_suggest_apart` — operations on a tableau
* `Solver.run_apart` — the state of a solver after a run
* `Solver.run_mentions` — what occurs where in its tableau
-/

namespace Cassowary

/-- The variable that an equation is solved for occurs in it or is a symbol of the constraint. -/
theorem Row.key_of_subject? {α : Type} [Scalar α] {row : Row α} {handle : Handle}
    {subject : Subject} (h : row.subject? handle = some subject) :
    row.contains subject.key = true ∨ subject.key ∈ handle.markers := by
  unfold subject? at h
  dsimp only at h
  split at h
  · next hfind =>
    cases h
    exact .inl (contains_iff_mem_keys.mpr (List.mem_of_find?_eq_some hfind))
  · split at h
    · next hfind =>
      cases h
      exact .inr (List.mem_filter.mp (List.mem_of_find?_eq_some hfind)).1
    · obtain ⟨k, hfind, rfl⟩ := Option.map_eq_some_iff.mp h
      exact .inr (List.mem_filter.mp (List.mem_of_find?_eq_some hfind)).1

theorem Row.Over.known_of_mem_terms {α : Type} [Scalar α] {row : Row α} {t : Tableau α}
    (h : row.Over t) {c : Term Key α} (hc : c ∈ row.terms) : t.Known c.var :=
  h.known (contains_iff_mem_keys.mpr (var_mem_keys hc))

namespace Tableau

open Attempt

variable {α : Type} [Scalar α] {t t' : Tableau α} {row : Row α} {handle : Handle}
  {k entering : Key} {n : Nat}

omit [Scalar α] in
theorem Known.mono (h : t.Known k) (hid : t.nextId ≤ t'.nextId) : t'.Known k :=
  fun hinternal => (h hinternal).trans_le hid

/-- Basic variables occur on the left only, what is queued has been given out, and so have the
symbols below an index. -/
structure Apart (n : Nat) (t : Tableau α) : Prop where
  separated : t.Separated
  queued : ∀ k ∈ t.infeasible, t.Known k
  given : n ≤ t.nextId

/-- A key occurs in a tableau: it is basic, it waits in the queue, or a row or one of the objectives
has a term for it. -/
inductive Mentions (t : Tableau α) (k : Key) : Prop where
  | basic (h : t.isBasic k = true)
  | queued (h : k ∈ t.infeasible)
  | row {b : Key} {row : Row α} (h : t.rows.get? b = some row) (hk : row.contains k = true)
  | target {target : Target} {row : Row α} (h : t.targetRow target = some row)
      (hk : row.contains k = true)

namespace Apart

omit [Scalar α] in
/-- A symbol that occurs in a tableau has been given out. -/
theorem known (h : t.Apart n) (hk : t.Mentions k) : t.Known k := by
  cases hk with
  | basic hb => exact h.separated.known hb
  | queued hq => exact h.queued k hq
  | row hrow hk => exact (h.separated.row hrow).known hk
  | target htarget hk => exact (h.separated.target htarget).known hk

omit [Scalar α] in
/-- A tableau stays apart when the queue becomes shorter and when symbols are given out. -/
theorem of_eq (h : t.Apart n) (hrows : t'.rows = t.rows) (hobjective : t'.objective = t.objective)
    (hartificial : t'.artificial = t.artificial ∨ t'.artificial = none)
    (hqueue : ∀ k ∈ t'.infeasible, k ∈ t.infeasible) (hid : t.nextId ≤ t'.nextId) : t'.Apart n :=
  ⟨h.separated.of_eq hrows hobjective hartificial hid,
    fun k hk => (h.queued k (hqueue k hk)).mono hid, h.given.trans hid⟩

omit [Scalar α] in
/-- A tableau that is apart is so from its own next index on. -/
theorem now (h : t.Apart n) : t.Apart t.nextId := ⟨h.separated, h.queued, le_rfl⟩

omit [Scalar α] in
theorem of_le (h : t.Apart n) {m : Nat} (hm : m ≤ n) : t.Apart m :=
  ⟨h.separated, h.queued, hm.trans h.given⟩

omit [Scalar α] in
/-- A tableau stays apart when rows and objectives change, as long as basic variables stay on the
left and what is queued anew has a row. -/
theorem of_separated (h : t.Apart n) (hseparated : t'.Separated)
    (hqueue : ∀ k ∈ t'.infeasible, t'.isBasic k = true ∨ k ∈ t.infeasible)
    (hid : t'.nextId = t.nextId) : t'.Apart n :=
  ⟨hseparated, fun k hk => (hqueue k hk).elim hseparated.known fun hold =>
    (h.queued k hold).mono hid.ge, h.given.trans hid.ge⟩

omit [Scalar α] in
theorem eraseRow (h : t.Apart n) (k : Key) : (t.eraseRow k).Apart n :=
  h.of_separated (h.separated.eraseRow k) (fun _ hk => .inr (infeasible_eraseRow t k ▸ hk))
    (nextId_eraseRow t k)

theorem enter (h : t.Apart n) (hrow : row.Over t) (hk : t.Known k) (hfree : row.contains k = false) :
    (t.enter k row).Apart n := by
  refine h.of_separated (h.separated.enter hrow hk hfree) (fun k' hk' => ?_) (nextId_enter t k row)
  rw [isBasic_enter_iff, or_assoc]
  exact (mem_infeasible_enter hk').imp_right (.imp_left fun ⟨_, hold, _⟩ => isBasic_of_get? hold)

theorem pivot (h : t.Apart n) (hentering : t.Known entering) (leaving : Key) :
    (t.pivot entering leaving).Apart n := by
  cases hrow : t.rows.get? leaving with
  | none => rwa [pivot_of_get?_eq_none hrow]
  | some row =>
    have henter := (h.eraseRow leaving).enter (h.separated.over_solveForPair hrow)
      (hentering.mono (nextId_eraseRow t leaving).ge) (Row.not_contains_solveFor _ _)
    rw [pivot_eq hrow]
    exact henter.of_eq rfl rfl (.inl rfl) (fun _ => id) le_rfl

/-- An artificial variable gives way like any other, though its successor is not queued. -/
theorem replace (h : t.Apart n) {a : Key} (hrow : t.rows.get? a = some row)
    (hentering : t.Known entering) : (t.replace a entering row).Apart n := by
  have hpivot := h.pivot hentering a
  obtain ⟨queue, pivots, heq, hsub⟩ := pivot_eq_replace hrow entering
  rw [heq] at hpivot
  exact hpivot.of_eq rfl rfl (.inl rfl) hsub le_rfl

theorem rest (h : t.Apart n) {queue : List Key}
    (hnext : t.nextViolated t.infeasible = some (k, row, queue)) :
    Apart n { t with infeasible := queue } :=
  h.of_eq rfl rfl (.inl rfl) (fun _ hk => subset_of_nextViolated hnext hk) le_rfl

theorem install (h : t.Apart n) (hrow : row.Over t) (hk : t.Known k) : (t.install row k).Apart n :=
  h.enter (hrow.solveFor k) hk (Row.not_contains_solveFor row k)

theorem shift (h : t.Apart n) (change : Key → Row α → Option α) : (t.shift change).Apart n := by
  refine h.of_separated (h.separated.shift change) (fun k hk => ?_) rfl
  rcases mem_infeasible_reviseAndQueue.mp hk with hviolated | hold
  · obtain ⟨row, _, hrow, -⟩ := mem_violations.mp hviolated
    exact .inl ((isBasic_revise t _ k).trans (isBasic_of_get? hrow))
  · exact .inr hold

end Apart

/-! ## Solving -/

theorem keeps_optimize_apart (target : Target) :
    Keeps (optimize target) (Apart (α := α) n) := by
  intro t ht
  refine ensures_iterate (fun h hrule => ?_) (fun h hrule => ?_) (fun h hrule => ?_)
    (fun h hrule => ?_) t.maxIterations ht
  · rwa [(primalRule_finished hrule).1]
  · rwa [(primalRule_impossible hrule).1]
  · obtain ⟨rfl, row, hrow, hentering, -⟩ := primalRule_pivot hrule
    obtain ⟨c, hc, rfl, -⟩ := entering?_eq_some hentering
    exact h.pivot ((h.separated.target hrow).known_of_mem_terms hc) _
  · rwa [(primalRule_pivot hrule).1]

theorem keeps_dualOptimize_apart : Keeps dualOptimize (Apart (α := α) n) := by
  intro t ht
  refine ensures_iterate (fun h hrule => ?_) (fun h hrule => ?_) (fun h hrule => ?_)
    (fun h hrule => ?_) t.maxIterations ht
  · obtain ⟨rfl, -⟩ := dualRule_finished hrule
    exact h.of_eq rfl rfl (.inl rfl) (fun _ hk => absurd hk List.not_mem_nil) le_rfl
  · obtain ⟨-, _, _, _, rfl, hnext, -⟩ := dualRule_impossible hrule
    exact h.rest hnext
  · obtain ⟨row, rest, rfl, hnext, hentering⟩ := dualRule_pivot hrule
    obtain ⟨_, hc, -⟩ := dualEntering?_eq_some hentering
    exact (h.rest hnext).pivot
      ((h.separated.row (nextViolated_eq_some hnext).1).known_of_mem_terms hc) _
  · obtain ⟨_, _, rfl, hnext, -⟩ := dualRule_pivot hrule
    exact h.rest hnext

theorem keeps_solve_apart : Keeps solve (Apart (α := α) n) :=
  (keeps_optimize_apart _).bind fun _ => keeps_dualOptimize_apart.bind fun _ =>
    keeps_modify fun _ h => h.of_eq rfl rfl (.inl rfl) (fun _ => id) le_rfl

theorem keeps_finish_apart (defer : Bool) : Keeps (finish defer) (Apart (α := α) n) := fun t h =>
  ensures_finish_of (fun _ _ => h.of_eq rfl rfl (.inl rfl) (fun _ => id) le_rfl) fun _ =>
    keeps_solve_apart t h

/-! ## Insertion -/

omit [Scalar α] in
theorem keeps_newSymbol_apart (kind : Kind) : Keeps (newSymbol kind) (Apart (α := α) n) := by
  intro t h
  unfold Ensures newSymbol
  cases Key.allocate kind false t.nextId with
  | ok k => exact h.of_eq rfl rfl (.inl rfl) (fun _ => id) (Nat.le_succ _)
  | error cause => exact h

/-- The row of a constraint is in the terms of the tableau, and its symbols are given out. -/
theorem ensures_createRow_apart (h : t.Apart n) {c : Constraint α} (hc : c.OverLayout)
    (s : Strength α) :
    Ensures (createRow c s) t
      (fun r t' => t'.Apart n ∧ r.1.Over t' ∧ ∀ k ∈ r.2.markers, t'.Known k)
      fun _ t' => t'.Apart n := by
  refine ensures_createRow_of (((ensures_addMarkers _ _ s t).and
    (ensures_addMarkers_failed _ _ s t)).imp ?made ?failed)
  case made =>
    rintro ⟨row, handle⟩ t' ⟨⟨hrow, -, hfresh, hlt, journal, ht'⟩, -⟩
    dsimp only at hrow hfresh hlt ht' ⊢
    have hid : t.nextId ≤ t'.nextId :=
      (hfresh.le _ List.mem_cons_self).trans (hlt _ List.mem_cons_self).le
    have hknown : ∀ k ∈ handle.markers, t'.Known k := fun k hk _ => hlt k hk
    have hseparated : t'.Separated := h.separated.insertPrices hid ht' hfresh hlt
    have hqueued : ∀ k ∈ t'.infeasible, t'.Known k := fun k hk =>
      (h.queued k (by rw [ht'] at hk; exact hk)).mono hid
    refine ⟨⟨hseparated, hqueued, h.given.trans hid⟩,
      (hseparated.substituteBasics fun k hk => ?_).normalize, hknown⟩
    rw [hrow] at hk
    exact known_of_mem_equation hc hknown hk
  case failed =>
    rintro cause _ ⟨-, n, hn, rfl⟩
    exact h.of_eq rfl rfl (.inl rfl) (fun _ => id) hn

theorem ensures_prepareFor_apart (h : t.Apart n) (hrow : row.Over t) (handle : Handle) :
    Ensures (prepareFor row handle) t
      (fun row' t' => (t'.Apart n ∧ t.nextId ≤ t'.nextId) ∧ row'.Over t') fun _ t' => t'.Apart n := by
  refine ensures_prepareFor_of (fun _ => ⟨⟨h, le_rfl⟩, hrow⟩) fun _ _ =>
    (keeps_solve_apart t h.now).imp (fun _ t' ht' => ?_) fun _ t' ht' => ht'.of_le h.given
  have hknown : ∀ k, row.contains k = true → t'.Known k := fun k hk =>
    (hrow.known hk).mono ht'.given
  exact ⟨⟨ht'.of_le h.given, ht'.given⟩, (ht'.separated.substituteBasics hknown).normalize⟩

theorem keeps_minimizeArtificial_apart : Keeps minimizeArtificial (Apart (α := α) n) := by
  intro t ht
  rw [ensures_minimizeArtificial_iff]
  exact (keeps_optimize_apart .artificial t ht).imp
    (fun _ _ h => h.of_eq rfl rfl (.inr rfl) (fun _ => id) le_rfl)
    fun _ _ h => h.of_eq rfl rfl (.inr rfl) (fun _ => id) le_rfl

theorem keeps_retireArtificial_apart (a : Key) :
    Keeps (retireArtificial a) (Apart (α := α) n) := by
  intro t h
  refine ensures_retireArtificial_of (fun _ => h) (fun _ _ _ => h.eraseRow a)
    (fun _ _ _ => h.eraseRow a) fun row entering hrow hentering => ?_
  have hcontains : row.contains entering = true :=
    Row.contains_iff_mem_keys.mpr (List.mem_of_find?_eq_some hentering)
  exact h.replace hrow ((h.separated.row hrow).known hcontains)

/-- A new symbol occurs nowhere, so it may stand for a row that is kept apart. -/
theorem ensures_addWithArtificial_apart (h : t.Apart n) (hrow : row.Over t) :
    Ensures (addWithArtificial row) t (fun _ t' => t'.Apart n) fun _ t' => t'.Apart n := by
  refine ensures_bind _ |>.mpr
    (((ensures_newSymbol .artificial t).and (keeps_newSymbol_apart _ t h)).imp ?_
      fun _ _ => And.right)
  rintro a _ ⟨⟨⟨hkind, hindex⟩, rfl⟩, h'⟩
  have hnot : ¬ t.Known a := fun hknown =>
    absurd (hknown (by rw [Key.internal, hkind]; rfl)) (not_lt.mpr hindex.ge)
  have hnew : ∀ {r : Row α}, r.Over t → r.contains a = false := fun hr =>
    Bool.eq_false_iff.mpr fun hcontains => hnot (hr.known hcontains)
  have hbehind : ({ t with nextId := t.nextId + 1 } : Tableau α).behind a row |>.Apart n := by
    refine ⟨h'.separated.behind (hrow.mono (fun _ => id) (Nat.le_succ _)) (fun _ => ?_)
      (fun _ _ hr => hnew (h.separated.row hr)) (hnew h.separated.objective) (hnew hrow),
      h'.queued, h'.given⟩
    rw [hindex]
    exact Nat.lt_succ_self _
  rw [ensures_bind, ensures_modify]
  refine ensures_bind _ |>.mpr ((keeps_minimizeArtificial_apart _ hbehind).imp (fun _ t' h' => ?_)
    fun _ _ => id)
  rw [ensures_bind, ensures_get]
  split
  · exact h'
  · exact (keeps_retireArtificial_apart a).bind (fun _ => keeps_modify fun t ht =>
      ht.of_separated (ht.separated.dropColumn a)
        (fun k hk => .inr (infeasible_dropColumn t a ▸ hk)) (nextId_dropColumn t a)) t' h'

theorem ensures_insertRow_apart (h : t.Apart n) (hrow : row.Over t)
    (hmarkers : ∀ k ∈ handle.markers, t.Known k) :
    Ensures (insertRow row handle) t (fun _ t' => t'.Apart n) fun _ t' => t'.Apart n := by
  have hknown : ∀ {t' : Tableau α}, t.nextId ≤ t'.nextId → ∀ k ∈ handle.markers, t'.Known k :=
    fun hid k hk => (hmarkers k hk).mono hid
  refine ensures_insertRow_of (ensures_prepareFor_apart h hrow handle) ?_
    (fun _ _ h' _ _ _ => h'.1.1) ?_ fun _ _ h' _ _ => ensures_addWithArtificial_apart h'.1.1 h'.2
  · rintro row' t' subject ⟨⟨h', hid⟩, hrow'⟩ hsubject
    exact h'.install hrow' ((Row.key_of_subject? hsubject).elim hrow'.known (hknown hid _))
  · rintro row' t' ⟨⟨h', hid⟩, hrow'⟩ - - -
    exact h'.install hrow' (hknown hid _ List.mem_cons_self)

/-- An insertion keeps the basis apart, and gives out the symbols of its constraint. -/
theorem ensures_addConstraint_apart (h : t.Apart n) {c : Constraint α} (hc : c.OverLayout)
    (s : Strength α) (defer : Bool) :
    Ensures (addConstraint c s defer) t
      (fun handle t' => t'.Apart n ∧ ∀ k ∈ handle.markers, t'.Known k) fun _ t' => t'.Apart n := by
  refine ensures_bind _ |>.mpr ((ensures_createRow_apart h hc s).imp ?_ fun _ _ => id)
  rintro ⟨row, handle⟩ t' ⟨h', hrow, hmarkers⟩
  have hback : ∀ {t'' : Tableau α}, t''.Apart t'.nextId → t''.Apart n := fun h'' =>
    h''.of_le h'.given
  refine ensures_bind _ |>.mpr ((ensures_insertRow_apart h'.now hrow hmarkers).imp
    (fun _ t'' h'' => ?_) fun _ _ => hback)
  exact ensures_bind _ |>.mpr ((keeps_finish_apart defer t'' h'').imp
    (fun _ _ h => ⟨hback h, fun k hk => (hmarkers k hk).mono h.given⟩) fun _ _ => hback)

/-! ## Removal and targets -/

theorem Apart.dropPrices (h : t.Apart n) (s : Strength α) (errors : List Key)
    (herrors : ∀ k ∈ errors, t.Known k) :
    (errors.foldl (·.dropPrice · s) t).Apart n ∧
      (errors.foldl (·.dropPrice · s) t).nextId = t.nextId := by
  induction errors generalizing t with
  | nil => exact ⟨h, rfl⟩
  | cons k rest ih =>
    have hid := nextId_dropPrice t k s
    have hdropped : (t.dropPrice k s).Apart n :=
      h.of_separated (h.separated.dropPrice (herrors k List.mem_cons_self) s)
        (fun _ hk' => .inr (infeasible_dropPrice t k s ▸ hk')) hid
    obtain ⟨h', hid'⟩ := ih hdropped
      fun k' hk' => (herrors k' (List.mem_cons_of_mem _ hk')).mono hid.ge
    exact ⟨h', hid'.trans hid⟩

theorem Apart.dropMarker (h : t.Apart n) {marker : Key} (hmarker : t.Known marker) :
    (t.dropMarker marker).Apart n := by
  unfold Tableau.dropMarker
  split
  · exact h.eraseRow marker
  · split
    · exact (h.pivot hmarker _).eraseRow marker
    · exact h

theorem ensures_removeConstraint_apart (h : t.Apart n) (hmarkers : ∀ k ∈ handle.markers, t.Known k)
    (s : Strength α) (defer : Bool) :
    Ensures (removeConstraint handle s defer) t (fun _ t' => t'.Apart n) fun _ t' => t'.Apart n := by
  obtain ⟨hprices, hid⟩ := h.dropPrices s (handle.markers.filter (·.kind = .error))
    fun k hk => hmarkers k (List.mem_filter.mp hk).1
  exact ensures_removeConstraint_of (keeps_finish_apart defer _
    (hprices.dropMarker ((hmarkers _ List.mem_cons_self).mono hid.ge)))

theorem keeps_suggest_apart (handle : Handle) (delta : α) :
    Keeps (suggest handle delta) (Apart (α := α) n) := fun t h =>
  ensures_suggest_of (fun _ => h) (fun _ => keeps_solve_apart t h) (fun _ h _ => h)
    fun _ _ h _ => keeps_dualOptimize_apart _ (h.shift _)

end Tableau

/-! ## The books -/

namespace State

variable {α : Type} {s : State α} {t : Tableau α}

/-- Basic variables occur on the left only, and what is queued has been given out, as have the
symbols of all constraints that are held. -/
structure Apart (s : State α) : Prop where
  separated : s.tableau.Separated
  queued : ∀ k ∈ s.tableau.infeasible, s.tableau.Known k
  known : ∀ h r, s.constraints.get? h = some r → ∀ k ∈ h.markers, s.tableau.Known k

/-- The tableau of a state that is apart is so from its own next index on. -/
theorem Apart.tableau (hs : s.Apart) : s.tableau.Apart s.tableau.nextId :=
  ⟨hs.separated, hs.queued, le_rfl⟩

theorem Apart.withTableau (hs : s.Apart) (ht : t.Apart s.tableau.nextId) :
    ({ s with tableau := t } : State α).Apart :=
  ⟨ht.separated, ht.queued, fun h r hr k hk => (hs.known h r hr k hk).mono ht.given⟩

theorem Apart.register [Scalar α] (hs : s.Apart) {h : Handle} (r : Record α)
    (hknown : ∀ k ∈ h.markers, s.tableau.Known k) : (s.register h r).Apart := by
  refine ⟨hs.separated, hs.queued, fun h' r' hr' k hk => ?_⟩
  have hget := (Table.get?_insert s.constraints h h' r).symm.trans hr'
  split at hget
  · next heq => exact hknown k (heq ▸ hk)
  · exact hs.known h' r' hget k hk

theorem Apart.unregister (hs : s.Apart) (h : Handle) : (s.unregister h).Apart := by
  unfold State.unregister
  split
  · exact hs
  · refine ⟨hs.separated, hs.queued, fun h' r' hr' k hk => ?_⟩
    have hget := (Table.get?_erase s.constraints h h').symm.trans hr'
    split at hget
    · cases hget
    · exact hs.known h' r' hget k hk

theorem apart_of_empty (hs : s.tableau.Separated) (hqueue : s.tableau.infeasible = [])
    (hnone : s.constraints = ∅) : s.Apart := by
  refine ⟨hs, fun k hk => ?_, fun _ _ hr => ?_⟩
  · rw [hqueue] at hk
    cases hk
  · rw [hnone] at hr
    cases hr

end State

/-- An operation that inserts a constraint inserts one over layout variables. -/
def Operation.OverLayout {α : Type} : Operation α → Prop
  | .insert c _ => c.OverLayout
  | _ => True

/-- The constraint that an operation on layout variables adds is over layout variables, whether it
is given or holds an edit variable. -/
theorem Operation.OverLayout.added {α : Type} [Scalar α] {s : Solver α} {o : Operation α}
    {c : Constraint α} {w : Strength α} (ho : o.OverLayout) (hadded : o.added s = some (c, w)) :
    c.OverLayout := by
  cases o with
  | insert c' w' => cases hadded; exact ho
  | startEdit x w' => cases hadded; exact x.overLayout_heldAt _
  | _ => cases hadded

namespace Solver

open Attempt

variable {α : Type} [Scalar α] {config : Config α} {s : Solver α} {o : Operation α}

/-- The basis is kept apart, now and in the state that an open batch goes back to. -/
structure Apart (s : Solver α) : Prop where
  state : s.state.Apart
  snapshot : ∀ b state, s.batch = some b → b.snapshot = some state → state.Apart

omit [Scalar α] in
theorem Apart.opening (hs : s.Apart) : s.opening.Apart s.state.tableau.nextId := by
  unfold Solver.opening
  split
  · exact hs.state.tableau.of_eq rfl rfl (.inl rfl) (fun _ => id) le_rfl
  · exact hs.state.tableau

namespace Apart

variable (hs : s.Apart) (hrest : s.AtRest config)
include hs hrest

omit [Scalar α] in
/-- Where an operation keeps the basis apart, so does the solver, whether the operation succeeds, is
undone, or leaves the solver poisoned. -/
theorem ensures_guarded {β : Type} {operation : Attempt (Tableau α) β}
    {done : β → Tableau α → Prop} (hkeeps : ∀ t₀, Keeps operation (Tableau.RecoversTo · t₀))
    (hoperation : Ensures operation s.opening
      (fun b t => t.Apart s.state.tableau.nextId ∧ done b t)
      fun _ t => t.Apart s.state.tableau.nextId) :
    Ensures (guarded operation) s
      (fun b s' => s'.Apart ∧ ∃ t, done b t ∧ s'.state.tableau = t.commit) fun _ s' => s'.Apart := by
  refine (ensures_guarded_cases hkeeps hrest hoperation).imp ?_ ?_
  · rintro b _ ⟨t, ⟨ht, hdone⟩, rfl⟩
    have hcommit : t.commit.Apart s.state.tableau.nextId :=
      ht.of_eq rfl rfl (.inl rfl) (fun _ => id) le_rfl
    exact ⟨⟨hs.state.withTableau hcommit, hs.snapshot⟩, t, hdone, rfl⟩
  · rintro _ _ ⟨t, ht, ⟨n, rfl⟩ | ⟨n, rfl⟩⟩
    · exact ⟨hs.state, hs.snapshot⟩
    · exact ⟨hs.state.withTableau ht, hs.snapshot⟩

omit [Scalar α] in
theorem ensures_guarded_apart {β : Type} {operation : Attempt (Tableau α) β}
    (hkeeps : ∀ t₀, Keeps operation (Tableau.RecoversTo · t₀))
    (hoperation : Ensures operation s.opening (fun _ t => t.Apart s.state.tableau.nextId)
      fun _ t => t.Apart s.state.tableau.nextId) :
    Ensures (guarded operation) s (fun _ s' => s'.Apart) fun _ s' => s'.Apart := by
  have hboth : Ensures operation s.opening
      (fun _ t => t.Apart s.state.tableau.nextId ∧ True)
      fun _ t => t.Apart s.state.tableau.nextId :=
    hoperation.imp (fun _ _ ht => ⟨ht, trivial⟩) fun _ _ => id
  exact (hs.ensures_guarded hrest hkeeps hboth).imp (fun _ _ => And.left) fun _ _ => id

theorem ensures_insert {c : Constraint α} (hc : c.OverLayout) (w : Strength α) :
    Ensures (insert c w) s (fun _ s' => s'.Apart) fun _ s' => s'.Apart := by
  refine ensures_insert_of ((hs.ensures_guarded hrest (fun _ => Tableau.keeps_addConstraint c w _)
    (Tableau.ensures_addConstraint_apart hs.opening hc w _)).imp ?_ fun _ _ => id)
  rintro h s' ⟨hs', t, hknown, heq⟩
  have hgiven : ∀ k ∈ h.markers, s'.state.tableau.Known k := fun k hk => by
    rw [heq]
    exact hknown k hk
  exact ⟨hs'.state.register _ hgiven, hs'.snapshot⟩

theorem ensures_remove (h : Handle) :
    Ensures (remove h) s (fun _ s' => s'.Apart) fun _ s' => s'.Apart := by
  refine ensures_remove_of (fun _ => hs) fun r hr => ?_
  have hknown : ∀ k ∈ h.markers, s.opening.Known k := fun k hk =>
    (hs.state.known h r hr k hk).mono hs.opening.given
  exact (hs.ensures_guarded_apart hrest
    (fun _ => Tableau.keeps_removeConstraint h r.strength s.isBatching)
    (Tableau.ensures_removeConstraint_apart hs.opening hknown r.strength _)).imp
      (fun _ _ hs' => ⟨hs'.state.unregister h, hs'.snapshot⟩) fun _ _ => id

theorem ensures_suggest (h : Handle) (delta : α) :
    Ensures (guarded (Tableau.suggest h delta)) s (fun _ s' => s'.Apart) fun _ s' => s'.Apart :=
  hs.ensures_guarded_apart hrest (fun _ => Tableau.keeps_suggest h delta)
    (Tableau.keeps_suggest_apart h delta _ hs.opening)

omit [Scalar α] hrest in
theorem ensures_openBatch : Ensures openBatch s (fun _ s' => s'.Apart) fun _ s' => s'.Apart := by
  refine ensures_openBatch_of (fun _ => hs) fun _ b hb => ⟨hs.state, ?_⟩
  rintro _ state ⟨⟩ hsnapshot
  rw [hb state hsnapshot]
  exact hs.state

omit hrest in
theorem ensures_closeBatch : Ensures closeBatch s (fun _ s' => s'.Apart) fun _ s' => s'.Apart := by
  refine ensures_closeBatch_of (fun _ => hs) fun b hb =>
    (Tableau.keeps_solve_apart _ hs.state.tableau).imp
      (fun _ t ht => ⟨hs.state.withTableau ht, fun _ _ => nofun⟩)
      fun _ t ht => ⟨fun state hsnapshot => ?_, fun _ => ?_⟩
  · exact ⟨hs.snapshot b state hb hsnapshot, fun _ _ => nofun⟩
  · exact ⟨hs.state.withTableau ht, fun _ _ => nofun⟩

/-- Every operation keeps the basis apart, whatever comes of it. -/
theorem ensures_perform (ho : o.OverLayout) :
    Ensures (perform o) s (fun _ s' => s'.Apart) fun _ s' => s'.Apart := by
  cases hsingle : o.single with
  | true =>
    exact ensures_perform_single hsingle hs
      (fun _ _ hs => ⟨⟨hs.state.1, hs.state.2, hs.state.3⟩, hs.snapshot⟩)
      (fun c w hadded => hs.ensures_insert hrest (ho.added hadded) w)
      (fun h _ => hs.ensures_remove hrest h) fun h delta _ => hs.ensures_suggest hrest h delta
  | false =>
    cases o with
    | openBatch => exact ensures_bind _ |>.mpr hs.ensures_openBatch
    | closeBatch => exact ensures_bind _ |>.mpr hs.ensures_closeBatch
    | clear =>
      exact ⟨State.apart_of_empty (Tableau.separated_empty _ _) rfl rfl,
        fun _ _ hopen => by cases hopen⟩
    | _ => cases hsingle

end Apart

/-- In every solver that a run leads to, poisoned or not and in a batch or not, the basic variables
occur on the left only, and every symbol that occurs has been given out. -/
theorem run_apart {os : List (Operation α)} (hos : ∀ o ∈ os, o.OverLayout) :
    ((ofConfig config).run os).Apart := by
  have hstart : (ofConfig config).AtRest config ∧ (ofConfig config).Apart :=
    ⟨atRest_ofConfig config, State.apart_of_empty (Tableau.separated_empty _ _) rfl rfl,
      fun _ _ hopen => by cases hopen⟩
  refine (run_induction (P := fun s => s.AtRest config ∧ s.Apart) hstart fun o ho s hs => ?_).2
  exact (keeps_perform o s hs.1).and (hs.2.ensures_perform hs.1 (hos o ho))

/-- Whatever the arithmetic and the configuration are, after any run, poisoned or not and in a batch
or not, no basic variable occurs in a row or in an objective, and every symbol of the solver that
occurs anywhere in the tableau has an index below the next one. -/
theorem run_mentions {os : List (Operation α)} (hos : ∀ o ∈ os, o.OverLayout) :
    (∀ b, ((ofConfig config).run os).state.tableau.isBasic b = true →
      (∀ k row, ((ofConfig config).run os).state.tableau.rows.get? k = some row →
        row.contains b = false) ∧
      ∀ target row, ((ofConfig config).run os).state.tableau.targetRow target = some row →
        row.contains b = false) ∧
    ∀ k, ((ofConfig config).run os).state.tableau.Mentions k → k.internal = true →
      k.index.toNat < ((ofConfig config).run os).state.tableau.nextId := by
  have hrun : ((ofConfig config).run os).Apart := run_apart hos
  have happart := hrun.state.tableau
  refine ⟨fun b hb => ⟨fun k row hrow => ?_, fun target row hrow => ?_⟩, fun k hk => ?_⟩
  · exact (happart.separated.row hrow).nonbasic hb
  · exact (happart.separated.target hrow).nonbasic hb
  · exact happart.known hk

/-- Two variables that may not be negative, and then have to add up to less than zero. -/
def squeezed : List (Operation Rat) :=
  [.insert (.ofFormulas (.var (.external 0)) .greaterOrEqual (.number 0)) .required,
    .insert (.ofFormulas (.var (.external 1)) .greaterOrEqual (.number 0)) .required,
    .insert (.ofFormulas (.add (.var (.external 0)) (.var (.external 1))) .equal (.number (-1)))
      .required]

/-- The last insertion fails while its artificial variable is basic, and nothing is undone. -/
theorem run_mentions_squeezed :
    ((ofConfig ⟨0, false, 100⟩).run squeezed).poisoned = true ∧
    ((ofConfig ⟨0, false, 100⟩).run squeezed).state.tableau.isBasic ⟨.artificial, false, 3⟩ = true ∧
    (∀ k row, ((ofConfig ⟨0, false, 100⟩).run squeezed).state.tableau.rows.get? k = some row →
      row.contains ⟨.artificial, false, 3⟩ = false) ∧
    3 < ((ofConfig ⟨0, false, 100⟩).run squeezed).state.tableau.nextId := by
  have hlayout : ∀ o ∈ squeezed, o.OverLayout := by
    intro o ho
    simp only [squeezed, List.mem_cons, List.not_mem_nil, or_false] at ho
    rcases ho with rfl | rfl | rfl <;> exact Constraint.overLayout_reduce _ _ _
  have hrun := @run_mentions Rat _ ⟨0, false, 100⟩ squeezed hlayout
  have hbasic : ((ofConfig ⟨0, false, 100⟩).run squeezed).state.tableau.isBasic
      ⟨.artificial, false, 3⟩ = true := by decide +kernel
  exact ⟨by decide +kernel, hbasic, (hrun.1 _ hbasic).1, hrun.2 _ (.basic hbasic) rfl⟩

end Solver

end Cassowary
