import Cassowary.Proofs.Separation

/-!
# The queue of violated rows

Whenever the constant of a row moves, the row is queued if it is violated then. So the queue misses
no violated row, though it may hold keys whose rows are fine again or gone. The dual method passes
over those, and what is left when it is done is a tableau without violated rows. No law of
arithmetic is used.

## Main definitions

* `Tableau.QueueRestricted` — layout variables are never queued
* `Tableau.Overlooks` — a violated row that is not queued
* `Tableau.Queued` — every violated row is queued

## Main results

* `Tableau.Overlooks.of_reviseAndQueue`, `Tableau.Overlooks.of_enter` — changes of rows queue what
  they violate
* `Tableau.infeasible_enter_of_violates` — without violations, nothing is queued
* `Tableau.Overlooks.of_dual_pivot` — a pivot of the dual method keeps the rest of the queue
* `Tableau.Queued.violates_eq_false` — when the queue has been worked off, no row is violated
-/

namespace Cassowary

namespace Tableau

variable {α : Type} [Scalar α] {t t' : Tableau α} {row : Row α} {k k' entering leaving : Key}
  {change : Key → Row α → Option (Row α)}

/-! ## What is queued -/

theorem violates_iff :
    t.violates k row = true ↔ k.unrestricted = false ∧ row.constant < -t.epsilon := by
  rw [violates, Bool.and_eq_true, Bool.not_eq_true', decide_eq_true_eq]

theorem violates_congr (h : t'.epsilon = t.epsilon) (k : Key) (row : Row α) :
    t'.violates k row = t.violates k row := by
  rw [violates, violates, h]

omit [Scalar α] in
@[simp] theorem infeasible_eraseRow (t : Tableau α) (k : Key) :
    (t.eraseRow k).infeasible = t.infeasible := by
  unfold eraseRow
  split <;> rfl

@[simp] theorem infeasible_dropPrice (t : Tableau α) (k : Key) (s : Strength α) :
    (t.dropPrice k s).infeasible = t.infeasible := by
  unfold dropPrice
  split <;> rfl

theorem mem_violations : k ∈ t.violations change ↔
    ∃ row row', t.rows.get? k = some row ∧ change k row = some row' ∧ t.violates k row' = true := by
  rw [violations, List.mem_map]
  constructor
  · rintro ⟨e, he, rfl⟩
    obtain ⟨hmem, hany⟩ := List.mem_filter.mp he
    obtain ⟨row', hrow', hviolates⟩ := (Option.any_eq_true _ _).mp hany
    exact ⟨e.2, row', Table.get?_eq_some_iff.mpr hmem, hrow', hviolates⟩
  · rintro ⟨row, row', hrow, hchange, hviolates⟩
    refine ⟨(k, row), List.mem_filter.mpr ⟨Table.get?_eq_some_iff.mp hrow, ?_⟩, rfl⟩
    rw [hchange, Option.any_some, hviolates]

theorem mem_infeasible_reviseAndQueue :
    k ∈ (t.reviseAndQueue change).infeasible ↔ k ∈ t.violations change ∨ k ∈ t.infeasible := by
  rw [reviseAndQueue, List.mem_append, List.mem_reverse]

/-- What is eliminated from the rows is eliminated from the objectives as well, but only the rows
can be violated. -/
theorem infeasible_eliminate (t : Tableau α) (k : Key) (row : Row α) :
    (t.eliminate k row).infeasible =
      (t.reviseAndQueue fun _ other => other.substitute? (.unit k) row).infeasible := by
  unfold eliminate
  dsimp only
  split <;> rfl

theorem rows_eliminate (t : Tableau α) (k : Key) (row : Row α) :
    (t.eliminate k row).rows =
      (t.reviseAndQueue fun _ other => other.substitute? (.unit k) row).rows := by
  unfold eliminate
  dsimp only
  split <;> rfl

/-- What is queued when a key is replaced had it in its row. -/
theorem mem_infeasible_eliminate (h : k' ∈ (t.eliminate k row).infeasible) :
    (∃ old, t.rows.get? k' = some old ∧ old.contains k = true) ∨ k' ∈ t.infeasible := by
  rw [infeasible_eliminate, mem_infeasible_reviseAndQueue, mem_violations] at h
  refine h.imp_left fun ⟨old, new, hold, hchange, _⟩ => ⟨old, hold, ?_⟩
  exact (Row.isSome_substitute? old (.unit k) row).symm.trans (congrArg Option.isSome hchange)

/-- What is queued when a row enters is its key, or had it in its row. -/
theorem mem_infeasible_enter (h : k' ∈ (t.enter k row).infeasible) :
    k' = k ∨ (∃ old, t.rows.get? k' = some old ∧ old.contains k = true) ∨ k' ∈ t.infeasible := by
  have hqueue : (t.enter k row).infeasible = ((t.eliminate k row).enqueue k row).infeasible := rfl
  rw [hqueue, enqueue_eq] at h
  have hcases : k' = k ∨ k' ∈ (t.eliminate k row).infeasible := by
    dsimp only at h
    split at h
    · exact List.mem_cons.mp h
    · exact .inr h
  exact hcases.imp_right mem_infeasible_eliminate

/-- Where no row is violated afterwards, a row that enters queues nothing. -/
theorem infeasible_enter_of_violates (hk : t.isBasic k = false)
    (h : ∀ k' row', (t.enter k row).rows.get? k' = some row' → t.violates k' row' = false) :
    (t.enter k row).infeasible = t.infeasible := by
  have hqueue : (t.enter k row).infeasible = ((t.eliminate k row).enqueue k row).infeasible := rfl
  have hself : (t.eliminate k row).violates k row = false :=
    (violates_congr (epsilon_eliminate t k row) k row).trans
      (h k row (by rw [get?_enter, if_pos rfl]))
  have hnone : t.violations (fun _ other => other.substitute? (.unit k) row) = [] := by
    refine List.eq_nil_iff_forall_not_mem.mpr fun k' hk' => ?_
    obtain ⟨old, new, hold, hchange, hviolates⟩ := mem_violations.mp hk'
    have hnew : old.substitute (.unit k) row = new := by
      rw [Row.substitute, hchange, Option.getD_some]
    rw [h k' new (by rw [get?_enter, if_neg (ne_of_get? hold hk), hold, ← hnew]; rfl)] at hviolates
    cases hviolates
  rw [hqueue, enqueue_eq, hself, if_neg Bool.false_ne_true, infeasible_eliminate, reviseAndQueue,
    hnone]
  rfl

/-! ## Layout variables are not queued -/

/-- Layout variables may take any sign, so none is queued. -/
def QueueRestricted (t : Tableau α) : Prop := ∀ k ∈ t.infeasible, k.unrestricted = false

omit [Scalar α] in
instance (t : Tableau α) : Decidable t.QueueRestricted := List.decidableBAll _ _

namespace QueueRestricted

omit [Scalar α] in
theorem of_eq (h : t.QueueRestricted) (hqueue : t'.infeasible = t.infeasible) :
    t'.QueueRestricted := fun k hk => h k (hqueue ▸ hk)

theorem reviseAndQueue (h : t.QueueRestricted) (change : Key → Row α → Option (Row α)) :
    (t.reviseAndQueue change).QueueRestricted := by
  intro k hk
  rcases mem_infeasible_reviseAndQueue.mp hk with hviolated | hold
  · obtain ⟨_, _, -, -, hviolates⟩ := mem_violations.mp hviolated
    exact (violates_iff.mp hviolates).1
  · exact h k hold

theorem eliminate (h : t.QueueRestricted) (k : Key) (row : Row α) :
    (t.eliminate k row).QueueRestricted :=
  (h.reviseAndQueue _).of_eq (infeasible_eliminate t k row)

theorem enter (h : t.QueueRestricted) (k : Key) (row : Row α) :
    (t.enter k row).QueueRestricted := by
  intro k' hk'
  have hqueue : (t.enter k row).infeasible = ((t.eliminate k row).enqueue k row).infeasible := rfl
  rw [hqueue, enqueue_eq] at hk'
  dsimp only at hk'
  split at hk'
  · next hviolates =>
    rcases List.mem_cons.mp hk' with rfl | hold
    · exact (violates_iff.mp hviolates).1
    · exact h.eliminate _ _ k' hold
  · exact h.eliminate _ _ k' hk'

theorem pivot (h : t.QueueRestricted) (entering leaving : Key) :
    (t.pivot entering leaving).QueueRestricted := by
  unfold Tableau.pivot
  split
  · exact ((h.of_eq (infeasible_eraseRow t leaving)).enter _ _).of_eq rfl
  · exact h

end QueueRestricted

/-! ## What is not queued -/

/-- A key whose row is violated, and which is not queued. -/
def Overlooks (t : Tableau α) (k : Key) : Prop :=
  k ∉ t.infeasible ∧ ∃ row, t.rows.get? k = some row ∧ t.violates k row = true

namespace Overlooks

theorem of_eq (h : t'.Overlooks k) (hrows : t'.rows = t.rows)
    (hqueue : t'.infeasible = t.infeasible) (hepsilon : t'.epsilon = t.epsilon) :
    t.Overlooks k := by
  obtain ⟨hnot, row, hrow, hviolates⟩ := h
  exact ⟨hqueue ▸ hnot, row, hrows ▸ hrow, by rwa [← violates_congr hepsilon]⟩

theorem of_eraseRow (h : (t.eraseRow k).Overlooks k') : t.Overlooks k' := by
  obtain ⟨hnot, row, hrow, hviolates⟩ := h
  rw [infeasible_eraseRow] at hnot
  rw [violates_congr (epsilon_eraseRow t k)] at hviolates
  exact ⟨hnot, row, (get?_of_eraseRow hrow).2, hviolates⟩

/-- A row is either as it was before, or it is looked at when it changes. -/
theorem of_reviseAndQueue (h : (t.reviseAndQueue change).Overlooks k) : t.Overlooks k := by
  obtain ⟨hnot, row, hrow, hviolates⟩ := h
  rw [mem_infeasible_reviseAndQueue, not_or] at hnot
  have hviolates : t.violates k row = true := hviolates
  obtain ⟨old, hold, rfl⟩ := Option.map_eq_some_iff.mp ((get?_revise t change k).symm.trans hrow)
  cases hchange : change k old with
  | none =>
    rw [hchange, Option.getD_none] at hviolates
    exact ⟨hnot.2, old, hold, hviolates⟩
  | some new =>
    rw [hchange, Option.getD_some] at hviolates
    exact absurd (mem_violations.mpr ⟨old, new, hold, hchange, hviolates⟩) hnot.1

theorem of_eliminate (h : (t.eliminate k row).Overlooks k') : t.Overlooks k' :=
  of_reviseAndQueue (h.of_eq (rows_eliminate t k row) (infeasible_eliminate t k row)
    (epsilon_eliminate t k row))

/-- A row that is put under a key is not looked at, so that this key may come to be overlooked, and
no other one. -/
theorem of_putRow (h : (t.putRow k row).Overlooks k') :
    t.Overlooks k' ∨ k' = k ∧ k ∉ t.infeasible ∧ t.violates k row = true := by
  obtain ⟨hnot, row', hrow', hviolates⟩ := h
  rcases get?_putRow_cases hrow' with ⟨rfl, rfl⟩ | hrow'
  · exact .inr ⟨rfl, hnot, hviolates⟩
  · exact .inl ⟨hnot, row', hrow', hviolates⟩

theorem of_enter (h : (t.enter k row).Overlooks k') : t.Overlooks k' := by
  rcases of_putRow h with h | ⟨-, hnot, hviolates⟩
  · obtain ⟨hnot, row', hrow', hviolates⟩ := h
    rw [enqueue_eq] at hnot hrow' hviolates
    have heliminated : (t.eliminate k row).Overlooks k' := by
      refine ⟨fun hmem => hnot ?_, row', hrow', hviolates⟩
      dsimp only
      split
      · exact List.mem_cons_of_mem _ hmem
      · exact hmem
    exact heliminated.of_eliminate
  · -- The row that enters is queued before it is put in its place
    rw [enqueue_eq] at hnot hviolates
    exact absurd ((if_pos hviolates).symm ▸ List.mem_cons_self) hnot

theorem of_pivot (h : (t.pivot entering leaving).Overlooks k) : t.Overlooks k := by
  unfold Tableau.pivot at h
  split at h
  · exact of_eraseRow (of_enter (h.of_eq rfl rfl rfl))
  · exact h

/-- The column of a variable goes without any constant moving. -/
theorem of_dropColumn (h : (t.dropColumn k).Overlooks k') : t.Overlooks k' := by
  obtain ⟨hnot, row, hrow, hviolates⟩ := h
  rw [infeasible_dropColumn] at hnot
  obtain ⟨old, hold, rfl⟩ := get?_dropColumn_eq_some hrow
  rw [violates_congr (epsilon_dropColumn t k)] at hviolates
  exact ⟨hnot, old, hold, hviolates⟩

/-- Taken from the queue, the row that leaves is not missed, since it goes. -/
theorem of_dual_pivot {rest skipped : List Key}
    (h : ({ t with infeasible := rest }.pivot entering leaving).Overlooks k)
    (hrow : t.rows.get? leaving = some row) (hqueue : t.infeasible = skipped ++ leaving :: rest)
    (hskipped : ∀ k ∈ skipped, ∀ row, t.rows.get? k = some row → ¬ row.constant < -t.epsilon) :
    t.Overlooks k := by
  rw [pivot_eq (t := { t with infeasible := rest }) hrow] at h
  obtain ⟨hnot, row', hrow', hviolates⟩ := of_enter (h.of_eq rfl rfl rfl)
  rw [infeasible_eraseRow] at hnot
  rw [violates_congr (epsilon_eraseRow _ leaving)] at hviolates
  have hviolates : t.violates k row' = true := hviolates
  obtain ⟨hne, hrow'⟩ := get?_of_eraseRow hrow'
  refine ⟨fun hmem => ?_, row', hrow', hviolates⟩
  rw [hqueue, List.mem_append, List.mem_cons] at hmem
  rcases hmem with hskip | heq | hmem
  · exact hskipped k hskip row' hrow' (violates_iff.mp hviolates).2
  · exact hne heq
  · exact hnot hmem

/-- When nothing that is queued is violated, what is violated is overlooked. -/
theorem of_violates (hnext : t.nextViolated t.infeasible = none)
    (hrow : t.rows.get? k = some row) (hviolates : t.violates k row = true) : t.Overlooks k :=
  ⟨fun hmem => nextViolated_eq_none hnext hmem hrow (violates_iff.mp hviolates).2, row, hrow,
    hviolates⟩

end Overlooks

/-! ## Every violated row is queued -/

/-- The queue misses no violated row. -/
def Queued (t : Tableau α) : Prop :=
  ∀ k row, t.rows.get? k = some row → t.violates k row = true → k ∈ t.infeasible

theorem queued_iff :
    t.Queued ↔ ∀ e ∈ t.rows.entries, t.violates e.1 e.2 = true → e.1 ∈ t.infeasible :=
  Table.forall_get?_iff

instance (t : Tableau α) : Decidable t.Queued := decidable_of_iff' _ queued_iff

namespace Queued

theorem not_overlooks (h : t.Queued) (k : Key) : ¬ t.Overlooks k :=
  fun ⟨hnot, row, hrow, hviolates⟩ => hnot (h k row hrow hviolates)

/-- A change that overlooks nothing new keeps the queue complete. -/
theorem of_overlooks (h : t.Queued) (hsub : ∀ k, t'.Overlooks k → t.Overlooks k) : t'.Queued := by
  intro k row hrow hviolates
  by_contra hnot
  exact h.not_overlooks k (hsub k ⟨hnot, row, hrow, hviolates⟩)

theorem of_eq (h : t.Queued) (hrows : t'.rows = t.rows) (hqueue : t'.infeasible = t.infeasible)
    (hepsilon : t'.epsilon = t.epsilon) : t'.Queued :=
  h.of_overlooks fun _ hk => hk.of_eq hrows hqueue hepsilon

theorem eraseRow (h : t.Queued) (k : Key) : (t.eraseRow k).Queued :=
  h.of_overlooks fun _ => Overlooks.of_eraseRow

theorem reviseAndQueue (h : t.Queued) (change : Key → Row α → Option (Row α)) :
    (t.reviseAndQueue change).Queued := h.of_overlooks fun _ => Overlooks.of_reviseAndQueue

theorem eliminate (h : t.Queued) (k : Key) (row : Row α) : (t.eliminate k row).Queued :=
  h.of_overlooks fun _ => Overlooks.of_eliminate

/-- A row that is put where it is not violated need not be queued. -/
theorem putRow (h : t.Queued) (hrow : t.violates k row = true → k ∈ t.infeasible) :
    (t.putRow k row).Queued :=
  h.of_overlooks fun _ hk => hk.of_putRow.resolve_right fun ⟨_, hnot, hviolates⟩ =>
    hnot (hrow hviolates)

theorem enter (h : t.Queued) (k : Key) (row : Row α) : (t.enter k row).Queued :=
  h.of_overlooks fun _ => Overlooks.of_enter

theorem pivot (h : t.Queued) (entering leaving : Key) : (t.pivot entering leaving).Queued :=
  h.of_overlooks fun _ => Overlooks.of_pivot

theorem dropColumn (h : t.Queued) (k : Key) : (t.dropColumn k).Queued :=
  h.of_overlooks fun _ => Overlooks.of_dropColumn

/-- Taken from the queue, the row that leaves is not missed, since it goes. -/
theorem dual_pivot (h : t.Queued) {rest : List Key} {skipped : List Key}
    (hrow : t.rows.get? leaving = some row) (hqueue : t.infeasible = skipped ++ leaving :: rest)
    (hskipped : ∀ k ∈ skipped, ∀ row, t.rows.get? k = some row → ¬ row.constant < -t.epsilon) :
    ({ t with infeasible := rest }.pivot entering leaving).Queued :=
  h.of_overlooks fun _ hk => hk.of_dual_pivot hrow hqueue hskipped

/-- When nothing that is queued is violated, nothing is. -/
theorem violates_eq_false (h : t.Queued) (hnext : t.nextViolated t.infeasible = none)
    (hrow : t.rows.get? k = some row) : t.violates k row = false :=
  Bool.eq_false_iff.mpr fun hviolates => h.not_overlooks k (.of_violates hnext hrow hviolates)

end Queued

end Tableau

end Cassowary
