import Cassowary.Proofs.Row
import Cassowary.Proofs.WorkList
import Cassowary.Semantics

/-!
# What a tableau stands for

A tableau over the rationals represents the assignments that solve its rows, with a cost that its
objective differs from by a constant. Changes of the basis represent the same. A row that enters
adds its equation.

Whatever the variables that are not basic are set to, the rows give the basic ones values that make
a solution. So a variable that the represented assignments do not depend on occurs in no row.

## Main definitions

* `Tableau.Represents` — the solutions of the rows and the cost of the objective
* `Tableau.complete` — the solution with given values for the variables that are not basic
* `Ignores` — a set of assignments does not depend on the value of a variable
* `Tableau.Layered` — layout variables occur only in rows of layout variables
* `Tableau.Canonical` — all of this, and a queue without layout variables

## Main results

* `Tableau.Represents.install`, `Tableau.Represents.pivot` — an equation added, a basis changed
* `Tableau.Represents.solves_complete` — the completed assignments are represented
* `Tableau.Represents.coefficientFor_eq_zero` — ignored variables do not occur
* `Tableau.Canonical.install`, `Tableau.Canonical.pivot` — all of it is kept
-/

namespace Cassowary

/-- Membership does not depend on the value of a variable. -/
def Ignores (S : Assignment Rat → Prop) (k : Key) : Prop :=
  ∀ v x, S v → S (Function.update v k x)

/-- A cost does not depend on the value of a variable. -/
def CostIgnores (cost : Assignment Rat → Rat) (k : Key) : Prop :=
  ∀ v x, cost (Function.update v k x) = cost v

theorem Ignores.iff {S : Assignment Rat → Prop} {k : Key} (h : Ignores S k) (v : Assignment Rat)
    (x : Rat) : S (Function.update v k x) ↔ S v := by
  refine ⟨fun hv => ?_, h v x⟩
  have hback := h _ (v k) hv
  rwa [Function.update_idem, Function.update_eq_self] at hback

/-- A basic variable does not occur on the right. -/
theorem Row.Over.coefficientFor_basic {t : Tableau Rat} {row : Row Rat} {k : Key} (h : row.Over t)
    (hproper : row.Proper) (hk : t.isBasic k = true) : row.coefficientFor k = 0 :=
  hproper.contains_eq_false_iff.mp (h.nonbasic hk)

namespace Tableau

variable {t t' : Tableau Rat} {S S' : Assignment Rat → Prop} {cost cost' : Assignment Rat → Rat}
  {row other : Row Rat} {k k' entering leaving : Key} {target : Target} {v : Assignment Rat}

theorem solves_iff : t.Solves v ↔ ∀ k row, t.rows.get? k = some row → v k = row.evaluate v := by
  simp only [Solves, Table.get?_eq_some_iff, Prod.forall]

/-- An assignment meets all rows if it meets one of them and the rest. -/
theorem solves_eraseRow (h : t.rows.get? k = some row) :
    t.Solves v ↔ (t.eraseRow k).Solves v ∧ v k = row.evaluate v := by
  rw [solves_iff, solves_iff]
  constructor
  · refine fun hv => ⟨fun k' row' hrow' => ?_, hv k row h⟩
    exact hv k' row' (get?_of_eraseRow hrow').2
  · rintro ⟨hv, hk⟩ k' row' hrow'
    by_cases heq : k' = k
    · rw [heq, h] at hrow'
      cases hrow'
      rw [heq, hk]
    · exact hv k' row' (by rw [get?_eraseRow, if_neg heq, hrow'])

/-- A row that enters adds its equation. -/
theorem solves_enter (hproper : ∀ k row, t.rows.get? k = some row → row.Proper)
    (hk : t.isBasic k = false) :
    (t.enter k row).Solves v ↔ t.Solves v ∧ v k = row.evaluate v := by
  rw [solves_iff, solves_iff]
  constructor
  · intro hv
    have hkrow : v k = row.evaluate v := hv k row (by rw [get?_enter, if_pos rfl])
    refine ⟨fun k' old hold => ?_, hkrow⟩
    have hne : k' ≠ k := ne_of_get? hold hk
    have hnew := hv k' (old.substitute (.unit k) row)
      (by rw [get?_enter, if_neg hne, hold, Option.map_some])
    rwa [Row.evaluate_substitute (hproper _ _ hold), hkrow, sub_self, mul_zero, add_zero] at hnew
  · rintro ⟨hv, hkrow⟩ k' new hnew
    rcases get?_enter_cases hnew with ⟨rfl, rfl⟩ | ⟨old, hold, rfl⟩
    · exact hkrow
    · rw [Row.evaluate_substitute (hproper _ _ hold), hkrow, sub_self, mul_zero, add_zero,
        hv k' old hold]

/-! ## Representation -/

/-- The rows have the solutions `S`, and on them the objective is the cost up to a constant. -/
structure Represents (t : Tableau Rat) (S : Assignment Rat → Prop) (cost : Assignment Rat → Rat) :
    Prop where
  separated : t.Separated
  proper_row : ∀ {k row}, t.rows.get? k = some row → row.Proper
  proper_target : ∀ {target row}, t.targetRow target = some row → row.Proper
  solves_iff : ∀ v, t.Solves v ↔ S v
  exists_offset : ∃ offset, ∀ v, S v → t.objective.evaluate v + offset = cost v

namespace Represents

theorem proper_objective (h : t.Represents S cost) : t.objective.Proper :=
  h.proper_target (show t.targetRow .objective = some t.objective from rfl)

theorem over_row (h : t.Represents S cost) (hrow : t.rows.get? k = some row) : row.Over t :=
  h.separated.row hrow

/-- At a solution, a row has the value of its key. -/
theorem evaluate_row (h : t.Represents S cost) (hrow : t.rows.get? k = some row) (hv : S v) :
    row.evaluate v = v k :=
  (Tableau.solves_iff.mp ((h.solves_iff v).mpr hv) k row hrow).symm

/-- A tableau represents equations with the same solutions, and a cost that is the same at these but
for a constant. -/
theorem congr (h : t.Represents S cost) (hS : ∀ v, S v ↔ S' v)
    (hcost : ∃ offset, ∀ v, S' v → cost v + offset = cost' v) : t.Represents S' cost' where
  separated := h.separated
  proper_row := h.proper_row
  proper_target := h.proper_target
  solves_iff v := (h.solves_iff v).trans (hS v)
  exists_offset := by
    obtain ⟨offset, hoffset⟩ := h.exists_offset
    obtain ⟨more, hmore⟩ := hcost
    exact ⟨offset + more, fun v hv => by rw [← add_assoc, hoffset v ((hS v).mpr hv), hmore v hv]⟩

theorem congr_left (h : t.Represents S cost) (hS : ∀ v, S v ↔ S' v) : t.Represents S' cost :=
  h.congr hS ⟨0, fun v _ => add_zero (cost v)⟩

/-- What a tableau represents does not depend on its queue, counts and settings. -/
theorem of_eq (h : t.Represents S cost) (hrows : t'.rows = t.rows)
    (hobjective : t'.objective = t.objective)
    (hartificial : t'.artificial = t.artificial ∨ t'.artificial = none)
    (hid : t.nextId ≤ t'.nextId) : t'.Represents S cost := by
  refine ⟨h.separated.of_eq hrows hobjective hartificial hid,
    fun hrow => h.proper_row (by rwa [hrows] at hrow),
    fun hrow => h.proper_target (targetRow_of_eq hobjective hartificial hrow),
    fun v => ?_, ?_⟩
  · rw [← h.solves_iff, Solves, Solves, hrows]
  · rw [hobjective]
    exact h.exists_offset

/-- A row that enters adds its equation. -/
theorem enter (h : t.Represents S cost) (hrow : row.Over t) (hproper : row.Proper)
    (hk : t.isBasic k = false) (hknown : t.Known k) (hfree : row.contains k = false) :
    (t.enter k row).Represents (fun v => S v ∧ v k = row.evaluate v) cost where
  separated := h.separated.enter hrow hknown hfree
  proper_row {k' new} hnew := by
    rcases get?_enter_cases hnew with ⟨rfl, rfl⟩ | ⟨old, hold, rfl⟩
    · exact hproper
    · exact (h.proper_row hold).substitute k row
  proper_target {target new} hnew := by
    rw [targetRow_enter] at hnew
    obtain ⟨old, hold, rfl⟩ := Option.map_eq_some_iff.mp hnew
    exact (h.proper_target hold).substitute k row
  solves_iff v := by
    rw [solves_enter (fun _ _ hold => h.proper_row hold) hk, h.solves_iff]
  exists_offset := by
    obtain ⟨offset, hoffset⟩ := h.exists_offset
    have hobjective : (t.enter k row).objective = t.objective.substitute (.unit k) row :=
      Option.some_inj.mp (targetRow_enter t k row .objective)
    refine ⟨offset, fun v hv => ?_⟩
    rw [hobjective, Row.evaluate_substitute h.proper_objective, hv.2, sub_self, mul_zero, add_zero,
      hoffset v hv.1]

/-- Installing a row adds the equation that it is zero. -/
theorem install (h : t.Represents S cost) (hrow : row.Over t) (hproper : row.Proper)
    (hk : row.coefficientFor k ≠ 0) :
    (t.install row k).Represents (fun v => S v ∧ row.evaluate v = 0) cost := by
  have hcontains : row.contains k = true := hproper.contains_iff.mpr hk
  have hbasic : t.isBasic k = false := Bool.eq_false_iff.mpr fun hb => by
    rw [hrow.nonbasic hb] at hcontains
    cases hcontains
  refine (h.enter (hrow.solveFor k) (hproper.solveFor hk) hbasic (hrow.known hcontains)
    (Row.not_contains_solveFor row k)).congr_left fun v => and_congr_right fun _ => ?_
  rw [Row.evaluate_solveFor hk]
  constructor
  · intro heq
    have hzero : row.evaluate v / row.coefficientFor k = 0 := by linarith
    exact (div_eq_zero_iff.mp hzero).resolve_right hk
  · intro hzero
    rw [hzero, zero_div, sub_zero]

/-- A tableau without one of its rows represents its own equations and its objective. -/
theorem eraseRow (h : t.Represents S cost) (k : Key) :
    (t.eraseRow k).Represents (fun v => (t.eraseRow k).Solves v)
      (fun v => t.objective.evaluate v) where
  separated := h.separated.eraseRow k
  proper_row {k' row} hrow := by
    exact h.proper_row (get?_of_eraseRow hrow).2
  proper_target {target row} hrow := by
    rw [targetRow_eraseRow] at hrow
    exact h.proper_target hrow
  solves_iff _ := Iff.rfl
  exists_offset := ⟨0, fun v _ => by
    have hobjective : (t.eraseRow k).objective = t.objective :=
      Option.some_inj.mp (targetRow_eraseRow t k .objective)
    rw [hobjective, add_zero]⟩

/-- The coefficient that a pivot divides by belongs to a variable that is not basic. -/
theorem isBasic_entering (h : t.Represents S cost) (hrow : t.rows.get? leaving = some row)
    (hentering : row.coefficientFor entering ≠ 0) : t.isBasic entering = false :=
  Bool.eq_false_iff.mpr fun hb =>
    hentering ((h.over_row hrow).coefficientFor_basic (h.proper_row hrow) hb)

theorem entering_ne_leaving (h : t.Represents S cost) (hrow : t.rows.get? leaving = some row)
    (hentering : row.coefficientFor entering ≠ 0) : entering ≠ leaving :=
  (ne_of_get? hrow (h.isBasic_entering hrow hentering)).symm

/-- The key of a row does not occur in it. -/
theorem coefficientFor_self (h : t.Represents S cost) (hrow : t.rows.get? k = some row) :
    row.coefficientFor k = 0 :=
  (h.over_row hrow).coefficientFor_basic (h.proper_row hrow) (isBasic_of_get? hrow)

/-- The solved row of a pivot says the same as the row before. -/
theorem evaluate_entering_iff (h : t.Represents S cost) (hrow : t.rows.get? leaving = some row)
    (hentering : row.coefficientFor entering ≠ 0) (v : Assignment Rat) :
    v entering = (row.solveForPair leaving entering).evaluate v ↔ v leaving = row.evaluate v := by
  rw [Row.evaluate_solveForPair (h.proper_row hrow) hentering (h.coefficientFor_self hrow)]
  constructor
  · intro heq
    have hzero : (row.evaluate v - v leaving) / row.coefficientFor entering = 0 := by linarith
    have hsub := (div_eq_zero_iff.mp hzero).resolve_right hentering
    linarith
  · intro heq
    rw [heq, sub_self, zero_div, sub_zero]

/-- A pivot keeps the solutions and the cost. -/
theorem pivot (h : t.Represents S cost) (hrow : t.rows.get? leaving = some row)
    (hentering : row.coefficientFor entering ≠ 0) :
    (t.pivot entering leaving).Represents S cost := by
  have hproper := h.proper_row hrow
  have hself := h.coefficientFor_self hrow
  have hbasic : (t.eraseRow leaving).isBasic entering = false := by
    rw [isBasic_eraseRow, h.isBasic_entering hrow hentering, Bool.and_false]
  have hknown : t.Known entering := (h.over_row hrow).known (hproper.contains_iff.mpr hentering)
  have hover : (row.solveForPair leaving entering).Over (t.eraseRow leaving) :=
    h.separated.over_solveForPair hrow
  have henter := (h.eraseRow leaving).enter hover (hproper.solveForPair hentering hself) hbasic
    (fun hinternal => (nextId_eraseRow t leaving).symm ▸ hknown hinternal)
    (Row.not_contains_solveFor _ _)
  have hentered : ((t.eraseRow leaving).enter entering
      (row.solveForPair leaving entering)).Represents S cost := by
    refine henter.congr (fun v => ?_) h.exists_offset
    rw [h.evaluate_entering_iff hrow hentering, ← solves_eraseRow hrow, h.solves_iff]
  rw [pivot_eq hrow]
  exact hentered.of_eq rfl rfl (.inl rfl) le_rfl

/-- On solutions, a pivot keeps the value of what is made small. -/
theorem evaluate_target_pivot (h : t.Represents S cost) (hrow : t.rows.get? leaving = some row)
    (hentering : row.coefficientFor entering ≠ 0) (htarget : t.targetRow target = some other) :
    ∃ other', (t.pivot entering leaving).targetRow target = some other' ∧
      ∀ v, S v → other'.evaluate v = other.evaluate v := by
  refine ⟨_, by rw [targetRow_pivot hrow, htarget, Option.map_some], fun v hv => ?_⟩
  have hsolved := (h.evaluate_entering_iff hrow hentering v).mpr (h.evaluate_row hrow hv).symm
  rw [Row.evaluate_substitute (h.proper_target htarget), hsolved, sub_self, mul_zero, add_zero]

end Represents

/-! ## Solutions -/

/-- The values of the basic variables that the rows give, for values of the others. -/
def complete (t : Tableau Rat) (w : Assignment Rat) : Assignment Rat := fun k =>
  match t.rows.get? k with
  | some row => row.evaluate w
  | none => w k

theorem complete_of_get? (hrow : t.rows.get? k = some row) (w : Assignment Rat) :
    t.complete w k = row.evaluate w := by
  rw [complete, hrow]

theorem complete_of_isBasic_eq_false (hk : t.isBasic k = false) (w : Assignment Rat) :
    t.complete w k = w k := by
  rw [complete, isBasic_eq_false_iff.mp hk]

/-- A row in terms of what is not basic has the value that the given values make. -/
theorem evaluate_complete (hrow : row.Over t) (hproper : row.Proper) (w : Assignment Rat) :
    row.evaluate (t.complete w) = row.evaluate w := by
  apply Row.evaluate_congr
  intro k hk
  have hbasic : t.isBasic k = false := Bool.eq_false_iff.mpr fun hb =>
    hk (hrow.coefficientFor_basic hproper hb)
  exact complete_of_isBasic_eq_false hbasic w

namespace Represents

/-- Completed assignments are solutions. -/
theorem solves_complete (h : t.Represents S cost) (w : Assignment Rat) : S (t.complete w) := by
  refine (h.solves_iff _).mp (Tableau.solves_iff.mpr fun k row hrow => ?_)
  rw [complete_of_get? hrow, Tableau.evaluate_complete (h.over_row hrow) (h.proper_row hrow)]

/-- A variable that the solutions do not depend on is not basic. -/
theorem isBasic_eq_false (h : t.Represents S cost) (hk : Ignores S k) : t.isBasic k = false := by
  apply Bool.eq_false_iff.mpr
  intro hb
  obtain ⟨row, hrow⟩ := isBasic_iff.mp hb
  -- Moving the variable alone would leave its row
  have hsolution := h.solves_complete fun _ => 0
  have hmoved := h.evaluate_row hrow (hk _ (t.complete (fun _ => 0) k + 1) hsolution)
  rw [Function.update_self, Row.evaluate_update, h.coefficientFor_self hrow, zero_mul, add_zero,
    h.evaluate_row hrow hsolution] at hmoved
  linarith

/-- A variable that the solutions do not depend on occurs in no row. -/
theorem coefficientFor_eq_zero (h : t.Represents S cost) (hk : Ignores S k)
    (hrow : t.rows.get? k' = some row) : row.coefficientFor k = 0 := by
  have hne : k' ≠ k := ne_of_get? hrow (h.isBasic_eq_false hk)
  have hsolution := h.solves_complete fun _ => 0
  have hmoved := h.evaluate_row hrow (hk _ (t.complete (fun _ => 0) k + 1) hsolution)
  rw [Function.update_of_ne hne, Row.evaluate_update, h.evaluate_row hrow hsolution,
    add_sub_cancel_left, mul_one] at hmoved
  linarith

/-- A variable that neither the solutions nor the cost depend on does not occur in the objective. -/
theorem objective_coefficientFor_eq_zero (h : t.Represents S cost) (hk : Ignores S k)
    (hcost : CostIgnores cost k) : t.objective.coefficientFor k = 0 := by
  obtain ⟨offset, hoffset⟩ := h.exists_offset
  have hsolution := h.solves_complete fun _ => 0
  have hmoved := hoffset _ (hk _ (t.complete (fun _ => 0) k + 1) hsolution)
  rw [hcost, Row.evaluate_update, ← hoffset _ hsolution] at hmoved
  linarith

/-- Rows of the tableau that are put into a row do not change its value at a solution. -/
theorem evaluate_foldl_substitute (h : t.Represents S cost) (hproper : row.Proper) (hv : S v)
    {l : List (Key × Row Rat)} (hl : ∀ e ∈ l, t.rows.get? e.1 = some e.2) :
    (l.foldl (fun row e => row.substitute (.unit e.1) e.2) row).Proper ∧
      (l.foldl (fun row e => row.substitute (.unit e.1) e.2) row).evaluate v =
        row.evaluate v := by
  induction l generalizing row with
  | nil => exact ⟨hproper, rfl⟩
  | cons e rest ih =>
    have he := h.evaluate_row (hl e List.mem_cons_self) hv
    have hrest := ih (hproper.substitute e.1 e.2) fun e' he' => hl e' (List.mem_cons_of_mem _ he')
    rw [Row.evaluate_substitute hproper, he, sub_self, mul_zero, add_zero] at hrest
    exact hrest

/-- A row in the terms of the tableau has the same value at every solution. -/
theorem evaluate_substituteBasics (h : t.Represents S cost) (hproper : row.Proper) (hv : S v) :
    (t.substituteBasics row).Proper ∧ (t.substituteBasics row).evaluate v = row.evaluate v := by
  apply h.evaluate_foldl_substitute hproper hv
  intro e he
  obtain ⟨k, -, hk⟩ := List.mem_filterMap.mp he
  obtain ⟨row', hrow', rfl⟩ := Option.map_eq_some_iff.mp hk
  exact hrow'

end Represents

/-! ## Layout variables -/

/-- Layout variables occur only in rows of layout variables, and not in an objective. -/
structure Layered (t : Tableau Rat) : Prop where
  row : ∀ {k k' row}, t.rows.get? k = some row → k.unrestricted = false → k'.unrestricted = true →
    row.coefficientFor k' = 0
  target : ∀ {target row k'}, t.targetRow target = some row → k'.unrestricted = true →
    row.coefficientFor k' = 0

namespace Layered

theorem objective (h : t.Layered) (hk : k.unrestricted = true) : t.objective.coefficientFor k = 0 :=
  h.target (show t.targetRow .objective = some t.objective from rfl) hk

/-- A row of a symbol may enter if it has no layout variables. Any row of a layout variable may. -/
theorem enter (h : t.Layered) (hr : t.Represents S cost)
    (hrow : k.unrestricted = false → ∀ k', k'.unrestricted = true → row.coefficientFor k' = 0) :
    (t.enter k row).Layered := by
  have hsubstitute : ∀ {old : Row Rat} {k' : Key}, old.Proper →
      (∀ k', k'.unrestricted = true → old.coefficientFor k' = 0) → k'.unrestricted = true →
      (old.substitute (.unit k) row).coefficientFor k' = 0 := by
    intro old k' hproper hold hk'
    rw [Row.coefficientFor_substitute hproper, hold k' hk', ite_self, zero_add]
    by_cases hk : k.unrestricted = true
    · rw [hold k hk, zero_mul]
    · rw [hrow (Bool.not_eq_true _ ▸ hk) k' hk', mul_zero]
  refine ⟨fun {j k' new} hnew hj hk' => ?_, fun {target new k'} hnew hk' => ?_⟩
  · rcases get?_enter_cases hnew with ⟨rfl, rfl⟩ | ⟨old, hold, rfl⟩
    · exact hrow hj k' hk'
    · exact hsubstitute (hr.proper_row hold) (fun k' => h.row hold hj) hk'
  · rw [targetRow_enter] at hnew
    obtain ⟨old, hold, rfl⟩ := Option.map_eq_some_iff.mp hnew
    exact hsubstitute (hr.proper_target hold) (fun k' => h.target hold) hk'

theorem eraseRow (h : t.Layered) (k : Key) : (t.eraseRow k).Layered where
  row hrow hk hk' := h.row (get?_of_eraseRow hrow).2 hk hk'
  target hrow hk' := by
    rw [targetRow_eraseRow] at hrow
    exact h.target hrow hk'

theorem of_eq (h : t.Layered) (hrows : t'.rows = t.rows) (hobjective : t'.objective = t.objective)
    (hartificial : t'.artificial = t.artificial ∨ t'.artificial = none) : t'.Layered where
  row hrow := h.row (hrows ▸ hrow)
  target {target row k'} hrow hk' := by
    cases target with
    | objective =>
      rw [targetRow, hobjective] at hrow
      exact h.target (show t.targetRow .objective = some row from hrow) hk'
    | artificial =>
      rcases hartificial with heq | heq
      · rw [targetRow, heq] at hrow
        exact h.target (show t.targetRow .artificial = some row from hrow) hk'
      · rw [targetRow, heq] at hrow
        cases hrow

/-- A pivot between symbols does not touch layout variables. -/
theorem pivot (h : t.Layered) (hr : t.Represents S cost) (hrow : t.rows.get? leaving = some row)
    (hentering : row.coefficientFor entering ≠ 0) (hleaving : leaving.unrestricted = false) :
    (t.pivot entering leaving).Layered := by
  rw [pivot_eq hrow]
  refine ((h.eraseRow leaving).enter (hr.eraseRow leaving) fun _ k' hk' => ?_).of_eq rfl rfl
    (.inl rfl)
  have hne : k' ≠ leaving := by
    rintro rfl
    rw [hleaving] at hk'
    cases hk'
  rw [Row.coefficientFor_solveForPair (hr.proper_row hrow) hentering (hr.coefficientFor_self hrow),
    if_neg hne, h.row hrow hleaving hk', neg_zero, zero_div, ite_self]

end Layered

/-! ## Canonical tableaux -/

/-- A tableau that represents the solutions `S` with the cost `cost`, has layout variables only in
rows of layout variables, and queues none of them. -/
structure Canonical (t : Tableau Rat) (S : Assignment Rat → Prop) (cost : Assignment Rat → Rat) :
    Prop where
  represents : t.Represents S cost
  layered : t.Layered
  queue : t.QueueRestricted

namespace Canonical

theorem congr (h : t.Canonical S cost) (hS : ∀ v, S v ↔ S' v)
    (hcost : ∃ offset, ∀ v, S' v → cost v + offset = cost' v) : t.Canonical S' cost' :=
  ⟨h.represents.congr hS hcost, h.layered, h.queue⟩

theorem congr_left (h : t.Canonical S cost) (hS : ∀ v, S v ↔ S' v) : t.Canonical S' cost :=
  ⟨h.represents.congr_left hS, h.layered, h.queue⟩

/-- Counts and settings do not matter, and the queue may get shorter. -/
theorem of_eq (h : t.Canonical S cost) (hrows : t'.rows = t.rows)
    (hobjective : t'.objective = t.objective)
    (hartificial : t'.artificial = t.artificial ∨ t'.artificial = none)
    (hid : t.nextId ≤ t'.nextId) (hqueue : ∀ k ∈ t'.infeasible, k ∈ t.infeasible) :
    t'.Canonical S cost :=
  ⟨h.represents.of_eq hrows hobjective hartificial hid,
    h.layered.of_eq hrows hobjective hartificial,
    fun k hk => h.queue k (hqueue k hk)⟩

theorem pivot (h : t.Canonical S cost) (hrow : t.rows.get? leaving = some row)
    (hentering : row.coefficientFor entering ≠ 0) (hleaving : leaving.unrestricted = false) :
    (t.pivot entering leaving).Canonical S cost :=
  ⟨h.represents.pivot hrow hentering, h.layered.pivot h.represents hrow hentering hleaving,
    h.queue.pivot entering leaving⟩

/-- Solving a row for one of its keys and installing it adds the equation that it is zero. A row
with layout variables is solved for one of them. -/
theorem install (h : t.Canonical S cost) (hrow : row.Over t) (hproper : row.Proper)
    (hk : row.coefficientFor k ≠ 0)
    (hfree : k.unrestricted = false → ∀ k', k'.unrestricted = true → row.coefficientFor k' = 0) :
    (t.install row k).Canonical (fun v => S v ∧ row.evaluate v = 0) cost := by
  refine ⟨h.represents.install hrow hproper hk, ?_, h.queue.enter k _⟩
  apply h.layered.enter h.represents
  intro hrestricted k' hk'
  rw [Row.coefficientFor_solveFor hk, hfree hrestricted k' hk', neg_zero, zero_div,
    ite_self]

end Canonical

end Tableau

end Cassowary
