import Cassowary.Proofs.Parts
import Cassowary.Row.Lemmas

/-!
# Basic variables stay on the left

A tableau says what its basic variables are in terms of the others. So no basic variable may occur
in a row or in an objective. Symbols that the solver brings in are new, so a symbol that occurs
anywhere has an index below the next one. Both are kept by every change of a tableau, whatever the
arithmetic is.

## Main definitions

* `Tableau.Known` — a key that the solver may have brought in already
* `Row.Over` — a row without basic variables, made of known keys
* `Tableau.Separated` — a tableau of such rows
* `Tableau.Eliminated` — a tableau in which no basic variable occurs, with whatever keys

## Main results

* `Tableau.get?_enter`, `Tableau.get?_pivot` — the rows after a change of the basis
* `Tableau.Separated.enter`, `Tableau.Separated.pivot` — changes of the basis
* `Tableau.Eliminated.pivot` — a pivot eliminates the variable that becomes basic
* `Tableau.Separated.substituteBasics` — a row in the terms of a tableau
* `Tableau.Separated.behind` — an artificial variable that comes in
-/

namespace Cassowary

namespace Row

variable {α : Type} {row : Row α} {k : Key}

theorem remove_of_not_contains (h : row.contains k = false) :
    row.remove k = row := by
  have hcells : row.cells.erase k = row.cells := by
    apply Table.ext
    rw [Table.entries_erase, List.filter_eq_self]
    intro e he
    apply decide_eq_true
    intro heq
    rw [Row.contains, ← heq, Table.contains, Table.get?_eq_some_iff.mpr he] at h
    cases h
  rw [remove, hcells]

end Row

namespace Tableau

variable {α : Type} {t t' : Tableau α} {row other : Row α} {k k' b : Key} {target : Target}

/-! ## The rows after a change -/

theorem isBasic_iff : t.isBasic k = true ↔ ∃ row, t.rows.get? k = some row :=
  Option.isSome_iff_exists

theorem isBasic_of_get? (h : t.rows.get? k = some row) : t.isBasic k = true :=
  isBasic_iff.mpr ⟨row, h⟩

theorem isBasic_eq_false_iff : t.isBasic k = false ↔ t.rows.get? k = none := by
  rw [isBasic, Table.contains, Option.isSome_eq_false_iff, Option.isNone_iff_eq_none]

/-- What is basic is not what is not. -/
theorem ne_of_get? (h : t.rows.get? k = some row) (hk : t.isBasic k' = false) : k ≠ k' := by
  rintro rfl
  exact Bool.false_ne_true (hk.symm.trans (isBasic_of_get? h))

theorem get?_eraseRow (t : Tableau α) (k k' : Key) :
    (t.eraseRow k).rows.get? k' = if k' = k then none else t.rows.get? k' := by
  unfold eraseRow
  split
  · exact Table.get?_erase t.rows k k'
  · next hnone =>
    split
    · next heq => rw [heq, hnone]
    · rfl

/-- A row that is left when one is erased is an old row of another key. -/
theorem get?_of_eraseRow (h : (t.eraseRow k).rows.get? k' = some row) :
    k' ≠ k ∧ t.rows.get? k' = some row := by
  rw [get?_eraseRow] at h
  split at h
  · cases h
  · next hne => exact ⟨hne, h⟩

theorem isBasic_eraseRow (t : Tableau α) (k b : Key) :
    (t.eraseRow k).isBasic b = (decide (b ≠ k) && t.isBasic b) := by
  rw [isBasic, isBasic, Table.contains, get?_eraseRow]
  by_cases h : b = k
  · simp [h]
  · simp [h, Table.contains]

theorem get?_putRow (t : Tableau α) (k : Key) (row : Row α) (k' : Key) :
    (t.putRow k row).rows.get? k' = if k' = k then some row else t.rows.get? k' :=
  Table.get?_insert t.rows k k' row

/-- A row is the one that was put there, or it was there before. -/
theorem get?_putRow_cases (h : (t.putRow k row).rows.get? k' = some other) :
    k' = k ∧ other = row ∨ t.rows.get? k' = some other := by
  rw [get?_putRow] at h
  split at h
  · next heq => exact .inl ⟨heq, (Option.some_inj.mp h).symm⟩
  · exact .inr h

theorem get?_revise (t : Tableau α) (change : Key → Row α → Option (Row α)) (k : Key) :
    (t.revise change).rows.get? k = (t.rows.get? k).map fun row => (change k row).getD row :=
  Table.get?_mapValues _ _ _

/-- A change of rows keeps the basis. -/
theorem isBasic_revise (t : Tableau α) (change : Key → Row α → Option (Row α)) (b : Key) :
    (t.revise change).isBasic b = t.isBasic b := by
  rw [isBasic, isBasic, Table.contains, Table.contains, get?_revise, Option.isSome_map]

theorem get?_dropColumn (t : Tableau α) (k k' : Key) :
    (t.dropColumn k).rows.get? k' = (t.rows.get? k').map (·.remove k) := by
  have hrevise :
      (t.revise fun _ row => if row.contains k then some (row.remove k) else none).rows.get? k' =
        (t.rows.get? k').map (·.remove k) := by
    rw [get?_revise]
    refine congrArg (fun f => (t.rows.get? k').map f) (funext fun row => ?_)
    cases hk : row.contains k with
    | true => rfl
    | false => exact (Row.remove_of_not_contains hk).symm
  unfold dropColumn
  dsimp only
  split <;> exact hrevise

/-- The rows without the column are the rows before without their term. -/
theorem get?_dropColumn_eq_some (h : (t.dropColumn k).rows.get? k' = some row) :
    ∃ old, t.rows.get? k' = some old ∧ row = old.remove k := by
  rw [get?_dropColumn] at h
  obtain ⟨old, hold, heq⟩ := Option.map_eq_some_iff.mp h
  exact ⟨old, hold, heq.symm⟩

theorem objective_dropColumn (t : Tableau α) (k : Key) :
    (t.dropColumn k).objective = t.objective.remove k := by
  unfold dropColumn
  dsimp only
  split
  · rfl
  · next hk => exact (Row.remove_of_not_contains (Bool.not_eq_true _ ▸ hk)).symm

@[simp] theorem artificial_dropColumn (t : Tableau α) (k : Key) :
    (t.dropColumn k).artificial = t.artificial := by
  unfold dropColumn
  dsimp only
  split <;> rfl

@[simp] theorem infeasible_dropColumn (t : Tableau α) (k : Key) :
    (t.dropColumn k).infeasible = t.infeasible := by
  unfold dropColumn
  dsimp only
  split <;> rfl

@[simp] theorem nextId_dropColumn (t : Tableau α) (k : Key) :
    (t.dropColumn k).nextId = t.nextId := by
  unfold dropColumn
  dsimp only
  split <;> rfl

@[simp] theorem epsilon_dropColumn (t : Tableau α) (k : Key) :
    (t.dropColumn k).epsilon = t.epsilon := by
  unfold dropColumn
  dsimp only
  split <;> rfl

@[simp] theorem targetRow_eraseRow (t : Tableau α) (k : Key) (target : Target) :
    (t.eraseRow k).targetRow target = t.targetRow target := by
  unfold eraseRow
  split <;> cases target <;> rfl

@[simp] theorem nextId_eraseRow (t : Tableau α) (k : Key) : (t.eraseRow k).nextId = t.nextId := by
  unfold eraseRow
  split <;> rfl

@[simp] theorem epsilon_eraseRow (t : Tableau α) (k : Key) :
    (t.eraseRow k).epsilon = t.epsilon := by
  unfold eraseRow
  split <;> rfl

@[simp] theorem deferred_eraseRow (t : Tableau α) (k : Key) :
    (t.eraseRow k).deferred = t.deferred := by
  unfold eraseRow
  split <;> rfl

theorem pivots_eraseRow (t : Tableau α) (k : Key) : (t.eraseRow k).pivots = t.pivots := by
  unfold eraseRow
  split <;> rfl

/-- What is minimised does not depend on queue, counts and settings. -/
theorem targetRow_of_eq (hobjective : t'.objective = t.objective)
    (hartificial : t'.artificial = t.artificial ∨ t'.artificial = none)
    (h : t'.targetRow target = some row) : t.targetRow target = some row := by
  cases target with
  | objective => rwa [targetRow, hobjective] at h
  | artificial =>
    rcases hartificial with heq | heq
    · rwa [targetRow, heq] at h
    · rw [targetRow, heq] at h
      cases h

variable [Scalar α]

theorem get?_eliminate (t : Tableau α) (k : Key) (row : Row α) (k' : Key) :
    (t.eliminate k row).rows.get? k' = (t.rows.get? k').map (·.substitute (.unit k) row) := by
  unfold eliminate
  dsimp only
  split <;> exact get?_revise t _ k'

theorem targetRow_eliminate (t : Tableau α) (k : Key) (row : Row α) (target : Target) :
    (t.eliminate k row).targetRow target =
      (t.targetRow target).map (·.substitute (.unit k) row) := by
  unfold eliminate
  dsimp only
  cases target with
  | artificial => split <;> rfl
  | objective =>
    dsimp only [targetRow]
    split
    · rfl
    · next h =>
      have hsame : t.objective.substitute (.unit k) row = t.objective :=
        Row.substitute_of_not_contains (Bool.not_eq_true _ ▸ h)
      rw [Option.map_some, hsame]
      rfl

@[simp] theorem nextId_eliminate (t : Tableau α) (k : Key) (row : Row α) :
    (t.eliminate k row).nextId = t.nextId := by
  unfold eliminate
  dsimp only
  split <;> rfl

@[simp] theorem epsilon_eliminate (t : Tableau α) (k : Key) (row : Row α) :
    (t.eliminate k row).epsilon = t.epsilon := by
  unfold eliminate
  dsimp only
  split <;> rfl

@[simp] theorem deferred_eliminate (t : Tableau α) (k : Key) (row : Row α) :
    (t.eliminate k row).deferred = t.deferred := by
  unfold eliminate
  dsimp only
  split <;> rfl

/-- Nothing but the queue changes when a key is queued. -/
theorem enqueue_eq (t : Tableau α) (k : Key) (row : Row α) :
    t.enqueue k row = { t with
      infeasible := if t.violates k row then k :: t.infeasible else t.infeasible } := by
  unfold enqueue
  split <;> rfl

theorem get?_enter (t : Tableau α) (k : Key) (row : Row α) (k' : Key) :
    (t.enter k row).rows.get? k' =
      if k' = k then some row else (t.rows.get? k').map (·.substitute (.unit k) row) := by
  rw [enter, get?_putRow, enqueue_eq, get?_eliminate]

/-- A row is the one that has entered, or an old one in terms of that. -/
theorem get?_enter_cases (h : (t.enter k row).rows.get? k' = some other) :
    k' = k ∧ other = row ∨
      ∃ old, t.rows.get? k' = some old ∧ other = old.substitute (.unit k) row := by
  rw [get?_enter] at h
  split at h
  · next heq => exact .inl ⟨heq, (Option.some_inj.mp h).symm⟩
  · obtain ⟨old, hold, heq⟩ := Option.map_eq_some_iff.mp h
    exact .inr ⟨old, hold, heq.symm⟩

theorem isBasic_enter (t : Tableau α) (k : Key) (row : Row α) (b : Key) :
    (t.enter k row).isBasic b = (decide (b = k) || t.isBasic b) := by
  rw [isBasic, isBasic, Table.contains, get?_enter]
  by_cases h : b = k
  · simp [h]
  · simp [h, Table.contains]

theorem isBasic_enter_iff {k b : Key} :
    (t.enter k row).isBasic b = true ↔ b = k ∨ t.isBasic b = true := by
  rw [isBasic_enter, Bool.or_eq_true, decide_eq_true_eq]

theorem targetRow_enter (t : Tableau α) (k : Key) (row : Row α) (target : Target) :
    (t.enter k row).targetRow target =
      (t.targetRow target).map (·.substitute (.unit k) row) := by
  rw [← targetRow_eliminate, enter, enqueue_eq]
  cases target <;> rfl

@[simp] theorem nextId_enter (t : Tableau α) (k : Key) (row : Row α) :
    (t.enter k row).nextId = t.nextId := by
  rw [← nextId_eliminate t k row, enter, enqueue_eq]
  rfl

@[simp] theorem epsilon_enter (t : Tableau α) (k : Key) (row : Row α) :
    (t.enter k row).epsilon = t.epsilon := by
  rw [← epsilon_eliminate t k row, enter, enqueue_eq]
  rfl

@[simp] theorem deferred_enter (t : Tableau α) (k : Key) (row : Row α) :
    (t.enter k row).deferred = t.deferred := by
  rw [← deferred_eliminate t k row, enter, enqueue_eq]
  rfl

theorem pivots_enter (t : Tableau α) (k : Key) (row : Row α) :
    (t.enter k row).pivots = t.pivots := by
  unfold enter eliminate enqueue
  dsimp only
  split <;> split <;> rfl

/-- A pivot takes a row away and lets the solved row enter. -/
theorem pivot_eq {entering leaving : Key} (h : t.rows.get? leaving = some row) :
    t.pivot entering leaving =
      { (t.eraseRow leaving).enter entering (row.solveForPair leaving entering) with
        pivots :=
          ((t.eraseRow leaving).enter entering
            (row.solveForPair leaving entering)).pivots + 1 } := by
  unfold pivot
  rw [h]

/-- A key that is not basic does not leave. -/
theorem pivot_of_get?_eq_none {leaving : Key} (h : t.rows.get? leaving = none) (entering : Key) :
    t.pivot entering leaving = t := by
  unfold pivot
  rw [h]

theorem isBasic_pivot {entering leaving : Key} (h : t.rows.get? leaving = some row) (b : Key) :
    (t.pivot entering leaving).isBasic b =
      (decide (b = entering) || (decide (b ≠ leaving) && t.isBasic b)) := by
  rw [pivot_eq h, ← isBasic_eraseRow, ← isBasic_enter]
  rfl

theorem isBasic_pivot_iff {entering leaving b : Key} (h : t.rows.get? leaving = some row) :
    (t.pivot entering leaving).isBasic b = true ↔
      b = entering ∨ b ≠ leaving ∧ t.isBasic b = true := by
  rw [isBasic_pivot h, Bool.or_eq_true, Bool.and_eq_true, decide_eq_true_eq, decide_eq_true_eq]

theorem get?_pivot {entering leaving : Key} (h : t.rows.get? leaving = some row) (k : Key) :
    (t.pivot entering leaving).rows.get? k =
      if k = entering then some (row.solveForPair leaving entering)
      else if k = leaving then none
      else (t.rows.get? k).map
        (·.substitute (.unit entering) (row.solveForPair leaving entering)) := by
  rw [pivot_eq h]
  refine (get?_enter _ _ _ k).trans ?_
  rw [get?_eraseRow]
  split
  · rfl
  · split <;> rfl

/-- A row is the solved one, or an old one other than that in terms of it. -/
theorem get?_pivot_cases {entering leaving : Key} (h : t.rows.get? leaving = some row)
    (hnew : (t.pivot entering leaving).rows.get? k = some other) :
    k = entering ∧ other = row.solveForPair leaving entering ∨
      k ≠ leaving ∧ ∃ old, t.rows.get? k = some old ∧
        other = old.substitute (.unit entering) (row.solveForPair leaving entering) := by
  rw [get?_pivot h] at hnew
  split at hnew
  · next heq => exact .inl ⟨heq, (Option.some_inj.mp hnew).symm⟩
  · split at hnew
    · cases hnew
    · next hne =>
      obtain ⟨old, hold, heq⟩ := Option.map_eq_some_iff.mp hnew
      exact .inr ⟨hne, old, hold, heq.symm⟩

theorem targetRow_pivot {entering leaving : Key} (h : t.rows.get? leaving = some row)
    (target : Target) :
    (t.pivot entering leaving).targetRow target = (t.targetRow target).map
      (·.substitute (.unit entering) (row.solveForPair leaving entering)) := by
  rw [pivot_eq h, ← targetRow_eraseRow t leaving target, ← targetRow_enter]
  cases target <;> rfl

@[simp] theorem nextId_pivot (t : Tableau α) (entering leaving : Key) :
    (t.pivot entering leaving).nextId = t.nextId := by
  unfold pivot
  split
  · exact (nextId_enter _ _ _).trans (nextId_eraseRow t leaving)
  · rfl

@[simp] theorem epsilon_pivot (t : Tableau α) (entering leaving : Key) :
    (t.pivot entering leaving).epsilon = t.epsilon := by
  unfold pivot
  split
  · exact (epsilon_enter _ _ _).trans (epsilon_eraseRow t leaving)
  · rfl

@[simp] theorem deferred_pivot (t : Tableau α) (entering leaving : Key) :
    (t.pivot entering leaving).deferred = t.deferred := by
  unfold pivot
  split
  · exact (deferred_enter _ _ _).trans (deferred_eraseRow t leaving)
  · rfl

theorem pivots_pivot {entering leaving : Key} (h : t.rows.get? leaving = some row) :
    (t.pivot entering leaving).pivots = t.pivots + 1 := by
  rw [pivot_eq h]
  dsimp only
  rw [pivots_enter, pivots_eraseRow]

/-! ## Separated tableaux -/

omit [Scalar α] in
/-- A symbol of the solver has an index that has been given out. -/
def Known (t : Tableau α) (k : Key) : Prop := k.internal = true → k.index.toNat < t.nextId

end Tableau

/-- A row in terms of variables of a tableau that are not basic. -/
structure Row.Over {α : Type} (row : Row α) (t : Tableau α) : Prop where
  nonbasic : ∀ {b}, t.isBasic b = true → row.contains b = false
  known : ∀ {k}, row.contains k = true → t.Known k

namespace Row.Over

open Tableau

variable {α : Type} {t t' : Tableau α} {row other : Row α} {k : Key}

/-- With fewer basic variables and more symbols, a row is still in terms of the others. -/
theorem mono (h : row.Over t) (hbasic : ∀ b, t'.isBasic b = true → t.isBasic b = true)
    (hid : t.nextId ≤ t'.nextId) : row.Over t' where
  nonbasic hb := h.nonbasic (hbasic _ hb)
  known hk hinternal := (h.known hk hinternal).trans_le hid

theorem of_contains (h : row.Over t) (hsub : ∀ k, other.contains k = true → row.contains k = true) :
    other.Over t where
  nonbasic hb := Bool.eq_false_iff.mpr fun hk => by simpa [h.nonbasic hb] using hsub _ hk
  known hk := h.known (hsub _ hk)

theorem eraseRow (h : row.Over t) (k : Key) : row.Over (t.eraseRow k) :=
  h.mono (fun b hb => by
    rw [isBasic_eraseRow, Bool.and_eq_true] at hb
    exact hb.2) (nextId_eraseRow t k).ge

variable [Scalar α]

theorem ofConstant (t : Tableau α) (c : α) : (Row.ofConstant c).Over t where
  nonbasic _ := rfl
  known hk := by simp at hk

theorem insert (h : row.Over t) {s : Term Key α} (hbasic : t.isBasic s.var = false)
    (hknown : t.Known s.var) : (row.insert s).Over t where
  nonbasic {b} hb := by
    apply Bool.eq_false_iff.mpr
    intro hcontains
    rcases contains_of_contains_insert hcontains with rfl | hrow
    · simp [hbasic] at hb
    · simp [h.nonbasic hb] at hrow
  known {k} hk := by
    rcases contains_of_contains_insert hk with rfl | hrow
    · exact hknown
    · exact h.known hrow

theorem insertAll (h : row.Over t) {ts : List (Term Key α)}
    (hts : ∀ s ∈ ts, t.isBasic s.var = false ∧ t.Known s.var) : (row.insertAll ts).Over t := by
  induction ts generalizing row with
  | nil => exact h
  | cons s rest ih =>
    obtain ⟨hbasic, hknown⟩ := hts s List.mem_cons_self
    exact ih (h.insert hbasic hknown) fun s' hs' => hts s' (List.mem_cons_of_mem _ hs')

theorem insertRow (h : row.Over t) (hother : other.Over t) (factor : α) :
    (row.insertRow other factor).Over t where
  nonbasic {b} hb := by
    apply Bool.eq_false_iff.mpr
    intro hcontains
    rcases contains_of_contains_insertRow hcontains with h' | h'
    · simp [hother.nonbasic hb] at h'
    · simp [h.nonbasic hb] at h'
  known {k} hk := by
    rcases contains_of_contains_insertRow hk with h' | h'
    · exact hother.known h'
    · exact h.known h'

theorem solveFor (h : row.Over t) (k : Key) : (row.solveFor k).Over t :=
  h.of_contains fun _ => contains_of_contains_solveFor

theorem normalize (h : row.Over t) : row.normalize.Over t :=
  h.of_contains fun k hk => by
    rwa [contains_iff_mem_keys, keys_normalize, ← contains_iff_mem_keys] at hk

/-- When a row enters, the other rows are in terms of what is not basic then. -/
theorem substitute (h : row.Over t) (hother : other.Over t) (hk : other.contains k = false) :
    (row.substitute (.unit k) other).Over (t.enter k other) where
  nonbasic {b} hb := by
    apply Bool.eq_false_iff.mpr
    intro hcontains
    rcases isBasic_enter_iff.mp hb with rfl | hb
    · have hgone : (row.substitute (.unit b) other).contains b = false :=
        not_contains_substitute (t := .unit b) hk
      rw [hgone] at hcontains
      cases hcontains
    · rcases contains_of_contains_substitute hcontains with h' | h'
      · simp [hother.nonbasic hb] at h'
      · simp [h.nonbasic hb] at h'
  known {k'} hk' hinternal := by
    rw [nextId_enter]
    rcases contains_of_contains_substitute hk' with h' | h'
    · exact hother.known h' hinternal
    · exact h.known h' hinternal

end Row.Over

namespace Tableau

variable {α : Type} {t t' : Tableau α} {row other : Row α} {k k' b : Key} {target : Target}

/-- No basic variable occurs on the right of a row, and all symbols have been given out. -/
structure Separated (t : Tableau α) : Prop where
  known : ∀ {b}, t.isBasic b = true → t.Known b
  row : ∀ {k row}, t.rows.get? k = some row → row.Over t
  target : ∀ {target row}, t.targetRow target = some row → row.Over t

namespace Separated

theorem objective (h : t.Separated) : t.objective.Over t :=
  h.target (show t.targetRow .objective = some t.objective from rfl)

/-- A tableau stays separated when rows and objectives are dropped and symbols are given out. -/
theorem of_subset (h : t.Separated)
    (hrows : ∀ k row, t'.rows.get? k = some row → t.rows.get? k = some row)
    (htarget : ∀ target row, t'.targetRow target = some row → t.targetRow target = some row)
    (hid : t.nextId ≤ t'.nextId) : t'.Separated := by
  have hbasic : ∀ b, t'.isBasic b = true → t.isBasic b = true := fun b hb => by
    obtain ⟨row, hrow⟩ := isBasic_iff.mp hb
    exact isBasic_of_get? (hrows _ _ hrow)
  exact ⟨fun hb hinternal => (h.known (hbasic _ hb) hinternal).trans_le hid,
    fun hrow => (h.row (hrows _ _ hrow)).mono hbasic hid,
    fun hrow => (h.target (htarget _ _ hrow)).mono hbasic hid⟩

/-- Queue, counts and settings do not matter, and an artificial objective may go. -/
theorem of_eq (h : t.Separated) (hrows : t'.rows = t.rows) (hobjective : t'.objective = t.objective)
    (hartificial : t'.artificial = t.artificial ∨ t'.artificial = none)
    (hid : t.nextId ≤ t'.nextId) : t'.Separated :=
  h.of_subset (fun _ _ hrow => by rwa [hrows] at hrow)
    (fun _ _ => targetRow_of_eq hobjective hartificial) hid

/-- A tableau stays separated with another objective in the same terms. -/
theorem of_objective (h : t.Separated) (hrows : t'.rows = t.rows)
    (hartificial : t'.artificial = t.artificial) (hid : t.nextId ≤ t'.nextId)
    (hover : t'.objective.Over t') : t'.Separated := by
  have hbasic : ∀ b, t'.isBasic b = true → t.isBasic b = true := fun b hb => by
    rwa [isBasic, hrows] at hb
  refine ⟨fun hb hinternal => (h.known (hbasic _ hb) hinternal).trans_le hid,
    fun hrow => (h.row (hrows ▸ hrow)).mono hbasic hid, fun {target row} hrow => ?_⟩
  cases target with
  | objective => cases hrow; exact hover
  | artificial =>
    rw [targetRow, hartificial] at hrow
    exact (h.target (show t.targetRow .artificial = some row from hrow)).mono hbasic hid

theorem eraseRow (h : t.Separated) (k : Key) : (t.eraseRow k).Separated :=
  h.of_subset (fun _ _ hrow => (get?_of_eraseRow hrow).2)
    (fun target row hrow => by rwa [targetRow_eraseRow] at hrow) (nextId_eraseRow t k).ge

/-- Rows and objectives may be changed as long as no keys come in. -/
theorem of_contains (h : t.Separated) (hid : t'.nextId = t.nextId)
    (hrows : ∀ k row, t'.rows.get? k = some row → ∃ row', t.rows.get? k = some row' ∧
      ∀ k', row.contains k' = true → row'.contains k' = true)
    (htarget : ∀ target row, t'.targetRow target = some row →
      ∃ row', t.targetRow target = some row' ∧
        ∀ k', row.contains k' = true → row'.contains k' = true) : t'.Separated := by
  have hbasic : ∀ b, t'.isBasic b = true → t.isBasic b = true := fun b hb => by
    obtain ⟨row, hrow⟩ := isBasic_iff.mp hb
    obtain ⟨row', hrow', -⟩ := hrows b row hrow
    exact isBasic_of_get? hrow'
  refine ⟨fun hb hinternal => hid ▸ h.known (hbasic _ hb) hinternal, fun hrow => ?_, fun hrow => ?_⟩
  · obtain ⟨row', hrow', hsub⟩ := hrows _ _ hrow
    exact ((h.row hrow').of_contains hsub).mono hbasic hid.ge
  · obtain ⟨row', hrow', hsub⟩ := htarget _ _ hrow
    exact ((h.target hrow').of_contains hsub).mono hbasic hid.ge

variable [Scalar α]

/-- A row in terms of the others that does not mention its key may enter. -/
theorem enter (h : t.Separated) (hrow : row.Over t) (hk : t.Known k)
    (hfree : row.contains k = false) : (t.enter k row).Separated where
  known {b} hb hinternal := by
    rw [nextId_enter]
    rcases isBasic_enter_iff.mp hb with rfl | hb
    · exact hk hinternal
    · exact h.known hb hinternal
  row {k' row'} hget := by
    rcases get?_enter_cases hget with ⟨rfl, rfl⟩ | ⟨old, hold, rfl⟩
    · refine ⟨fun {b} hb => ?_, fun hk' hinternal => ?_⟩
      · rcases isBasic_enter_iff.mp hb with rfl | hb
        · exact hfree
        · exact hrow.nonbasic hb
      · rw [nextId_enter]
        exact hrow.known hk' hinternal
    · exact (h.row hold).substitute hrow hfree
  target {target row'} hget := by
    rw [targetRow_enter] at hget
    obtain ⟨old, hold, rfl⟩ := Option.map_eq_some_iff.mp hget
    exact (h.target hold).substitute hrow hfree

/-- The solved row of a pivot is in terms of what is not basic without the key that leaves. -/
theorem over_solveForPair (h : t.Separated) {entering leaving : Key}
    (hrow : t.rows.get? leaving = some row) :
    (row.solveForPair leaving entering).Over (t.eraseRow leaving) := by
  have hleaving := isBasic_of_get? hrow
  have hover : (row.equated leaving entering).Over (t.eraseRow leaving) := by
    rw [Row.equated]
    split
    · refine ((h.row hrow).eraseRow leaving).insert ?_ fun hinternal => ?_
      · rw [isBasic_eraseRow]
        simp
      · rw [nextId_eraseRow]
        exact h.known hleaving hinternal
    · exact (h.row hrow).eraseRow leaving
  exact hover.solveFor entering

theorem pivot (h : t.Separated) {entering leaving : Key} (hentering : t.Known entering) :
    (t.pivot entering leaving).Separated := by
  cases hrow : t.rows.get? leaving with
  | none => rwa [pivot_of_get?_eq_none hrow]
  | some row =>
    have henter :
        ((t.eraseRow leaving).enter entering (row.solveForPair leaving entering)).Separated :=
      (h.eraseRow leaving).enter (h.over_solveForPair hrow)
        (fun hinternal => (nextId_eraseRow t leaving).symm ▸ hentering hinternal)
        (Row.not_contains_solveFor _ _)
    rw [pivot_eq hrow]
    exact henter.of_eq rfl rfl (.inl rfl) le_rfl

omit [Scalar α] in
theorem dropColumn (h : t.Separated) (k : Key) : (t.dropColumn k).Separated := by
  have hremove : ∀ (row : Row α) k', (row.remove k).contains k' = true → row.contains k' = true :=
    fun row k' hk' => by
      rw [Row.contains_remove, Bool.and_eq_true] at hk'
      exact hk'.2
  have hrevise :
      (t.revise fun _ row => if row.contains k then some (row.remove k) else none).Separated := by
    refine h.of_contains rfl (fun k' row hrow => ?_) fun target row hrow =>
      ⟨row, by cases target <;> exact hrow, fun _ => id⟩
    rw [get?_revise] at hrow
    obtain ⟨old, hold, rfl⟩ := Option.map_eq_some_iff.mp hrow
    refine ⟨old, hold, fun k' => ?_⟩
    split
    · exact hremove old k'
    · exact id
  unfold Tableau.dropColumn
  dsimp only
  split
  · refine hrevise.of_contains rfl
      (fun k' row hrow => ⟨row, hrow, fun _ => id⟩) fun target row hrow => ?_
    cases target with
    | objective =>
      cases hrow
      exact ⟨_, rfl, hremove _⟩
    | artificial => exact ⟨row, hrow, fun _ => id⟩
  · exact hrevise

/-- A row is brought into the terms of a tableau by replacing the basic variables in it. -/
theorem substituteBasics (h : t.Separated) (hknown : ∀ k, row.contains k = true → t.Known k) :
    (t.substituteBasics row).Over t := by
  -- Whatever has been replaced does not come back, and what is still to be replaced is in the list
  have hfold : ∀ (l : List (Key × Row α)) (row : Row α),
      (∀ e ∈ l, t.rows.get? e.1 = some e.2) →
      (∀ b, t.isBasic b = true → row.contains b = true → b ∈ l.map Prod.fst) →
      (∀ k, row.contains k = true → t.Known k) →
      (l.foldl (fun row e => row.substitute (.unit e.1) e.2) row).Over t := by
    intro l
    induction l with
    | nil => exact fun row _ hbasic hknown => ⟨fun hb => Bool.eq_false_iff.mpr fun hk => by
        simpa using hbasic _ hb hk, fun hk => hknown _ hk⟩
    | cons e rest ih =>
      intro row hrows hbasic hknown
      have he := h.row (hrows e List.mem_cons_self)
      have hgone : (row.substitute (.unit e.1) e.2).contains e.1 = false :=
        Row.not_contains_substitute (t := .unit e.1)
          (he.nonbasic (isBasic_of_get? (hrows e List.mem_cons_self)))
      refine ih _ (fun e' he' => hrows e' (List.mem_cons_of_mem _ he')) (fun b hb hcontains => ?_)
        fun k hk => ?_
      · rcases Row.contains_of_contains_substitute hcontains with h' | h'
        · simp [he.nonbasic hb] at h'
        · rcases List.mem_cons.mp (hbasic b hb h') with heq | hmem
          · rw [heq] at hcontains
            exact absurd hcontains (Bool.eq_false_iff.mp hgone)
          · exact hmem
      · rcases Row.contains_of_contains_substitute hk with h' | h'
        · exact he.known h'
        · exact hknown k h'
  refine hfold _ row (fun e he => ?_) (fun b hb hcontains => ?_) hknown
  · obtain ⟨k, -, hk⟩ := List.mem_filterMap.mp he
    obtain ⟨row', hrow', rfl⟩ := Option.map_eq_some_iff.mp hk
    exact hrow'
  · obtain ⟨row', hrow'⟩ := isBasic_iff.mp hb
    refine List.mem_map.mpr ⟨(b, row'), List.mem_filterMap.mpr ⟨b, ?_, by rw [hrow']; rfl⟩, rfl⟩
    exact Row.contains_iff_mem_keys.mp hcontains

end Separated

/-- No basic variable occurs on the right of a row or in an objective. -/
structure Eliminated (t : Tableau α) : Prop where
  row : ∀ {k row b}, t.rows.get? k = some row → t.isBasic b = true → row.contains b = false
  target : ∀ {target row b}, t.targetRow target = some row → t.isBasic b = true →
    row.contains b = false

theorem eliminated_iff : t.Eliminated ↔ ∀ b ∈ t.rows.keys,
    (∀ e ∈ t.rows.entries, e.2.contains b = false) ∧ t.objective.contains b = false ∧
      ∀ row ∈ t.artificial, row.contains b = false := by
  constructor
  · intro h b hb
    have hbasic : t.isBasic b = true := Table.contains_iff_mem_keys.mpr hb
    exact ⟨fun e he => h.row (Table.get?_eq_some_iff.mpr he) hbasic,
      h.target (show t.targetRow .objective = some t.objective from rfl) hbasic,
      fun row hrow => h.target (show t.targetRow .artificial = some row from hrow) hbasic⟩
  · intro h
    refine ⟨fun {k row b} hrow hb => ?_, fun {target row b} hrow hb => ?_⟩
    · exact (h b (Table.contains_iff_mem_keys.mp hb)).1 (k, row) (Table.get?_eq_some_iff.mp hrow)
    · obtain ⟨-, hobjective, hartificial⟩ := h b (Table.contains_iff_mem_keys.mp hb)
      cases target with
      | objective =>
        cases hrow
        exact hobjective
      | artificial => exact hartificial row hrow

instance (t : Tableau α) : Decidable t.Eliminated :=
  @decidable_of_iff' _ _ eliminated_iff (List.decidableBAll _ _)

theorem Separated.eliminated (h : t.Separated) : t.Eliminated :=
  ⟨fun hrow hb => (h.row hrow).nonbasic hb, fun hrow hb => (h.target hrow).nonbasic hb⟩

namespace Eliminated

variable [Scalar α] {entering leaving : Key}

theorem coefficientFor_self (h : t.Eliminated) (hrow : t.rows.get? k = some row) :
    row.coefficientFor k = 0 :=
  Row.coefficientFor_of_not_contains (h.row hrow (isBasic_of_get? hrow))

/-- What is basic after a pivot does not occur in a solved row. -/
theorem not_contains_solveForPair (h : t.Eliminated) (hrow : t.rows.get? leaving = some row)
    (hb : (t.pivot entering leaving).isBasic b = true) :
    (row.solveForPair leaving entering).contains b = false := by
  rcases (isBasic_pivot_iff hrow).mp hb with rfl | ⟨hne, hb⟩
  · exact Row.not_contains_solveFor _ _
  · apply Bool.eq_false_iff.mpr
    intro hcontains
    rcases Row.contains_of_contains_solveForPair hcontains with heq | hold
    · exact hne heq
    · exact Bool.false_ne_true ((h.row hrow hb).symm.trans hold)

/-- What is basic after a pivot does not occur in a row that the solved row has been put into. -/
theorem not_contains_substitute (h : t.Eliminated) (hrow : t.rows.get? leaving = some row)
    (hother : ∀ {b}, t.isBasic b = true → other.contains b = false)
    (hb : (t.pivot entering leaving).isBasic b = true) :
    (other.substitute (.unit entering) (row.solveForPair leaving entering)).contains b = false := by
  have hsolved := h.not_contains_solveForPair hrow hb
  rcases (isBasic_pivot_iff hrow).mp hb with rfl | ⟨-, hb⟩
  · exact Row.not_contains_substitute (t := .unit b) hsolved
  · apply Bool.eq_false_iff.mpr
    intro hcontains
    rcases Row.contains_of_contains_substitute hcontains with hnew | hold
    · exact Bool.false_ne_true (hsolved.symm.trans hnew)
    · exact Bool.false_ne_true ((hother hb).symm.trans hold)

/-- The variable that becomes basic is replaced everywhere, by a row without basic variables. -/
theorem pivot (h : t.Eliminated) (hrow : t.rows.get? leaving = some row) :
    (t.pivot entering leaving).Eliminated where
  row hnew hb := by
    rcases get?_pivot_cases hrow hnew with ⟨-, rfl⟩ | ⟨-, old, hold, rfl⟩
    · exact h.not_contains_solveForPair hrow hb
    · exact h.not_contains_substitute hrow (h.row hold) hb
  target hnew hb := by
    rw [targetRow_pivot hrow] at hnew
    obtain ⟨old, hold, rfl⟩ := Option.map_eq_some_iff.mp hnew
    exact h.not_contains_substitute hrow (h.target hold) hb

end Eliminated

theorem targetRow_empty [Scalar α] {epsilon : α} {limit : Nat}
    (hrow : (Tableau.empty epsilon limit).targetRow target = some row) : row = .ofConstant 0 := by
  cases target with
  | objective => exact (Option.some_inj.mp hrow).symm
  | artificial => cases hrow

/-- A tableau without rows is separated. -/
theorem separated_empty [Scalar α] (epsilon : α) (limit : Nat) :
    (Tableau.empty epsilon limit).Separated where
  known hb := absurd hb Bool.false_ne_true
  row hrow := by cases hrow
  target hrow := by
    rw [targetRow_empty hrow]
    exact .ofConstant _ 0

/-! ## Artificial variables -/

variable {a entering : Key}

/-- A tableau with the row of a new variable, which is also the artificial objective. -/
def behind (t : Tableau α) (a : Key) (row : Row α) : Tableau α :=
  { t.putRow a row with artificial := some row }

/-- A row of the new tableau is the new one or an old one. -/
theorem get?_behind_cases {new : Row α} (h : (t.behind a new).rows.get? k = some row) :
    k = a ∧ row = new ∨ t.rows.get? k = some row :=
  get?_putRow_cases h

/-- An objective of the new tableau is the new row or the old objective. -/
theorem targetRow_behind_cases {new : Row α} (h : (t.behind a new).targetRow target = some row) :
    row = new ∨ row = t.objective := by
  cases target with
  | objective => exact .inr (Option.some_inj.mp h).symm
  | artificial => exact .inl (Option.some_inj.mp h).symm

theorem Separated.behind (h : t.Separated) (hrow : row.Over t) (ha : t.Known a)
    (hrows : ∀ k r, t.rows.get? k = some r → r.contains a = false)
    (hobjective : t.objective.contains a = false) (hcontains : row.contains a = false) :
    (t.behind a row).Separated := by
  have hbasic : ∀ b, (t.behind a row).isBasic b = true → b = a ∨ t.isBasic b = true := by
    intro b hb
    obtain ⟨r, hr⟩ := isBasic_iff.mp hb
    exact (get?_behind_cases hr).imp And.left isBasic_of_get?
  -- The variable is new, so a row without it stays one without basic variables
  have hover : ∀ r : Row α, r.Over t → r.contains a = false → r.Over (t.behind a row) :=
    fun r hr hra => ⟨fun hb => (hbasic _ hb).elim (fun heq => heq ▸ hra) fun hb => hr.nonbasic hb,
      fun hk => hr.known hk⟩
  refine ⟨fun hb => ?_, fun hr => ?_, fun hr => ?_⟩
  · exact (hbasic _ hb).elim (fun heq => heq ▸ ha) fun hb => h.known hb
  · rcases get?_behind_cases hr with ⟨rfl, rfl⟩ | hr
    · exact hover _ hrow hcontains
    · exact hover _ (h.row hr) (hrows _ _ hr)
  · rcases targetRow_behind_cases hr with rfl | rfl
    · exact hover _ hrow hcontains
    · exact hover _ h.objective hobjective

variable [Scalar α]

/-- A tableau in which another variable takes the place of the artificial one in the basis. -/
def replace (t : Tableau α) (a entering : Key) (row : Row α) : Tableau α :=
  ((t.eraseRow a).eliminate entering (row.solveForPair a entering)).putRow entering
    (row.solveForPair a entering)

/-- A pivot on the artificial variable does what `replace` does. Beyond that, it is counted, and its
row is queued if it is violated. -/
theorem pivot_eq_replace (hrow : t.rows.get? a = some row) (entering : Key) :
    ∃ queue pivots, t.pivot entering a =
        { t.replace a entering row with infeasible := queue, pivots := pivots } ∧
      ∀ k ∈ (t.replace a entering row).infeasible, k ∈ queue := by
  rw [pivot_eq hrow, enter, enqueue_eq]
  refine ⟨_, _, rfl, fun k hk => ?_⟩
  change k ∈ (if _ then _ else _ : List Key)
  split
  · exact List.mem_cons_of_mem _ hk
  · exact hk

/-! ## Prices and constants -/

@[simp] theorem nextId_dropPrice (t : Tableau α) (k : Key) (s : Strength α) :
    (t.dropPrice k s).nextId = t.nextId := by
  unfold dropPrice
  split <;> rfl

/-- A price may be dropped, of a basic variable as that of its row. -/
theorem Separated.dropPrice (h : t.Separated) (hk : t.Known k) (s : Strength α) :
    (t.dropPrice k s).Separated := by
  unfold Tableau.dropPrice
  dsimp only
  split
  · next row hrow =>
    refine h.of_objective rfl rfl le_rfl ?_
    exact (h.objective.insertRow (h.row hrow) _).mono (fun _ => id) le_rfl
  · next hnone =>
    refine h.of_objective rfl rfl le_rfl ?_
    exact (h.objective.insert (s := ⟨k, -s.value⟩) (isBasic_eq_false_iff.mpr hnone) hk).mono
      (fun _ => id) le_rfl

/-- Moving constants leaves a separated tableau separated. -/
theorem Separated.shift (h : t.Separated) (change : Key → Row α → Option α) :
    (t.shift change).Separated := by
  refine h.of_contains rfl (fun k row hrow => ?_) fun target row hrow =>
    ⟨row, by cases target <;> exact hrow, fun _ => id⟩
  obtain ⟨old, hold, rfl⟩ := Option.map_eq_some_iff.mp ((get?_revise t _ k).symm.trans hrow)
  refine ⟨old, hold, fun k' => ?_⟩
  cases change k old <;> exact id

end Tableau

end Cassowary
