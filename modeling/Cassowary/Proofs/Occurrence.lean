import Cassowary.Proofs.Faithfulness
import Cassowary.Proofs.Registries
import Mathlib.Algebra.Module.LinearMap.Rat
import Mathlib.LinearAlgebra.Dimension.Constructions
import Mathlib.LinearAlgebra.Isomorphisms

/-!
# What occurs in a tableau

Layout variables stand in rows of layout variables only. Whatever else occurs is a symbol of a
constraint that is held, and there are as many rows as there are constraints.

The last of these is not a matter of counting what the operations do. The rows and the equations of
the constraints are two systems with the same solutions, and in each of them every equation has a
variable of its own: the basic variable of a row, and the marker of a constraint. So both systems
have as many equations as they take degrees of freedom away.

## Main definitions

* `Affine` — a quantity that is linear but for a constant
* `Table.Independent` — quantities with a variable of its own for each

## Main results

* `Table.Independent.size_eq` — systems with the same solutions have the same number of equations
* `State.Sound.size_rows` — there are as many rows as constraints
* `State.Sound.belongs_of_mentions` — a symbol that occurs belongs to a constraint
* `Solver.run_layered` — where layout variables occur after a run
* `Solver.run_size_rows` — how many rows there are after a run, and what occurs in them
-/

namespace Cassowary

/-! ## Systems of equations -/

/-- A quantity is the sum of its values, but for a constant. -/
def Affine (f : Assignment Rat → Rat) : Prop := ∀ v w, f (v + w) = f v + f w - f 0

namespace Affine

variable {f : Assignment Rat → Rat}

/-- The quantity without its constant. -/
def linear (h : Affine f) : Assignment Rat →ₗ[ℚ] ℚ :=
  AddMonoidHom.toRatLinearMap
    { toFun := fun v => f v - f 0
      map_zero' := sub_self _
      map_add' := fun v w => by rw [h v w]; ring }

theorem linear_apply (h : Affine f) (v : Assignment Rat) : h.linear v = f v - f 0 := rfl

/-- Along a variable, the linear part is the slope. -/
theorem linear_single (h : Affine f) {k : Key} {a : Rat} (hslope : Slope f k a) (x : Rat) :
    h.linear (Pi.single k x) = a * x := by
  have hmoved := hslope 0 x
  rw [Pi.zero_apply, sub_zero] at hmoved
  rw [linear_apply, Pi.single, hmoved, add_sub_cancel_left]

end Affine

theorem Row.affine_evaluate (row : Row Rat) : Affine row.evaluate := by
  intro v w
  have hsum : ∑ k, row.coefficientFor k * (v + w) k =
      ∑ k, row.coefficientFor k * v k + ∑ k, row.coefficientFor k * w k := by
    rw [← Finset.sum_add_distrib]
    exact Finset.sum_congr rfl fun k _ => mul_add _ _ _
  have hzero : row.evaluate 0 = row.constant := row.evaluate_zero
  rw [hzero, Row.evaluate_eq, Row.evaluate_eq row v, Row.evaluate_eq row w, hsum]
  ring

theorem Constraint.affine_equation (c : Constraint Rat) (h : Handle) : Affine (c.equation h) := by
  have hrow := ((Row.ofConstraint c).insertAll h.terms).affine_evaluate
  intro v w
  have hsum := hrow v w
  simp only [Tableau.evaluate_equation] at hsum
  exact hsum

namespace Table

variable {κ κ' β β' : Type} [DecidableEq κ] [DecidableEq κ']

/-- Each entry of a table gives a quantity, and has a variable that no other one depends on. -/
structure Independent (t : Table κ β) (f : κ → β → Assignment Rat → Rat) (own : κ → Key) :
    Prop where
  affine : ∀ k b, Affine (f k b)
  slope : ∀ k b, t.get? k = some b → ∃ a, a ≠ 0 ∧ Slope (f k b) (own k) a
  apart : ∀ k b k' b', t.get? k = some b → t.get? k' = some b' → k' ≠ k →
    Slope (f k b) (own k') 0

namespace Independent

variable {t : Table κ β} {t' : Table κ' β'} {f : κ → β → Assignment Rat → Rat} {own : κ → Key}
  {f' : κ' → β' → Assignment Rat → Rat} {own' : κ' → Key}

/-- The linear parts of all quantities. -/
def linear (h : t.Independent f own) : Assignment Rat →ₗ[ℚ] (Fin t.entries.length → ℚ) :=
  LinearMap.pi fun i => (h.affine (t.entries.get i).1 (t.entries.get i).2).linear

theorem linear_apply (h : t.Independent f own) (v : Assignment Rat)
    (i : Fin t.entries.length) :
    h.linear v i = (h.affine (t.entries.get i).1 (t.entries.get i).2).linear v := rfl

theorem get?_entries_get (t : Table κ β) (i : Fin t.entries.length) :
    t.get? (t.entries.get i).1 = some (t.entries.get i).2 :=
  get?_eq_some_iff.mpr (List.get_mem _ _)

omit [DecidableEq κ] in
/-- Distinct places hold distinct keys. -/
theorem fst_get_ne (t : Table κ β) {i j : Fin t.entries.length} (hne : j ≠ i) :
    (t.entries.get j).1 ≠ (t.entries.get i).1 := by
  intro heq
  have hentries : t.entries.Nodup := t.nodup_keys.of_map _
  have hsame := List.inj_on_of_nodup_map t.nodup_keys (List.get_mem _ j) (List.get_mem _ i) heq
  exact hne (List.nodup_iff_injective_get.mp hentries hsame)

/-- The quantities take any values that one asks for. -/
theorem linear_surjective (h : t.Independent f own) : Function.Surjective h.linear := by
  intro y
  choose a ha hslope using fun i : Fin t.entries.length => h.slope _ _ (get?_entries_get t i)
  -- The variable of each quantity is set so that this quantity is right; no other one moves
  refine ⟨∑ j, Pi.single (own (t.entries.get j).1) (y j / a j), funext fun i => ?_⟩
  rw [map_sum, Finset.sum_apply, Finset.sum_eq_single i]
  · rw [linear_apply, Affine.linear_single _ (hslope i), mul_div_cancel₀ _ (ha i)]
  · intro j _ hne
    rw [linear_apply, Affine.linear_single _ (h.apart _ _ _ _ (get?_entries_get t i)
      (get?_entries_get t j) (fst_get_ne t hne)), zero_mul]
  · exact fun hnot => absurd (Finset.mem_univ i) hnot

/-- From a solution, the linear parts are zero along the directions that lead to solutions. -/
theorem linear_eq_zero_iff (h : t.Independent f own) {v : Assignment Rat}
    (hv : ∀ e ∈ t.entries, f e.1 e.2 v = 0) (w : Assignment Rat) :
    h.linear w = 0 ↔ ∀ e ∈ t.entries, f e.1 e.2 (v + w) = 0 := by
  have hmoved : ∀ k b, (k, b) ∈ t.entries → f k b (v + w) = (h.affine k b).linear w :=
    fun k b he => by rw [h.affine, hv _ he, zero_add, Affine.linear_apply]
  constructor
  · intro hw e he
    obtain ⟨i, rfl⟩ := List.get_of_mem he
    rw [hmoved _ _ he, ← h.linear_apply w i, hw, Pi.zero_apply]
  · intro hw
    funext i
    rw [linear_apply, ← hmoved _ _ (List.get_mem _ _), hw _ (List.get_mem _ _), Pi.zero_apply]

/-- Two independent systems with the same solutions have as many equations as each other: the
directions in which one can move are the same, and each equation takes one away. -/
theorem size_eq (h : t.Independent f own) (h' : t'.Independent f' own') {v : Assignment Rat}
    (hv : ∀ e ∈ t.entries, f e.1 e.2 v = 0)
    (hsame : ∀ w, (∀ e ∈ t.entries, f e.1 e.2 w = 0) ↔ ∀ e ∈ t'.entries, f' e.1 e.2 w = 0) :
    t.size = t'.size := by
  unfold size
  have hker : LinearMap.ker h.linear = LinearMap.ker h'.linear := by
    ext w
    rw [LinearMap.mem_ker, LinearMap.mem_ker, h.linear_eq_zero_iff hv,
      h'.linear_eq_zero_iff ((hsame v).mp hv), hsame]
  have hequiv : (Fin t.entries.length → ℚ) ≃ₗ[ℚ] (Fin t'.entries.length → ℚ) :=
    (h.linear.quotKerEquivOfSurjective h.linear_surjective).symm.trans <|
      (Submodule.quotEquivOfEq _ _ hker).trans
        (h'.linear.quotKerEquivOfSurjective h'.linear_surjective)
  have hrank := hequiv.finrank_eq
  rwa [Module.finrank_fintype_fun_eq_card, Module.finrank_fintype_fun_eq_card, Fintype.card_fin,
    Fintype.card_fin] at hrank

end Independent

end Table

/-! ## The rows and the constraints -/

namespace Tableau

variable {t : Tableau Rat} {S : Assignment Rat → Prop} {cost : Assignment Rat → Rat}

/-- A row minus its basic variable, which no other row depends on. -/
theorem Represents.independent (h : t.Represents S cost) :
    t.rows.Independent (fun k row v => row.evaluate v - v k) id where
  affine k row := by
    intro v w
    dsimp only
    rw [row.affine_evaluate, Pi.add_apply, Pi.zero_apply]
    ring
  slope k row hrow := by
    refine ⟨-1, by norm_num, fun v x => ?_⟩
    dsimp only [id_eq]
    rw [Row.evaluate_update, h.coefficientFor_self hrow, Function.update_self]
    ring
  apart k row k' row' hrow hrow' hne := by
    intro v x
    dsimp only [id_eq]
    rw [Row.evaluate_update, Function.update_of_ne hne.symm,
      (h.over_row hrow).coefficientFor_basic (h.proper_row hrow) (isBasic_of_get? hrow')]
    ring

end Tableau

namespace State

variable {s : State Rat} {h : Handle} {r : Record Rat} {k : Key} {exact quiet : Prop}

/-- The equation of a constraint, whose marker no other equation depends on. -/
theorem Tidy.independent (hs : s.Tidy) :
    s.constraints.Independent (fun h r => (s.current h r).equation h) (·.marker) where
  affine h r := (s.current h r).affine_equation h
  slope h r hr :=
    ⟨1, one_ne_zero, Handle.equation_marker (hs.overLayout_current hr) (hs.fits h r hr)
      (hs.nodup h r hr)⟩
  apart h r h' r' hr hr' hne :=
    Handle.equation_ignores (hs.overLayout_current hr)
      ((hs.fits h' r' hr').unrestricted List.mem_cons_self)
      fun hmem => hne (hs.apart h' r' h r _ hr' hr List.mem_cons_self hmem)

/-- There are as many rows as constraints. -/
theorem Sound.size_rows (hs : s.Sound exact quiet) :
    s.tableau.rows.size = s.constraints.size := by
  have hr := hs.tableau.prepared.represents
  have hrows : ∀ v, (∀ e ∈ s.tableau.rows.entries, e.2.evaluate v - v e.1 = 0) ↔
      s.tableau.Solves v := fun v =>
    forall₂_congr fun _ _ => sub_eq_zero.trans eq_comm
  have hsolution := hr.solves_complete fun _ => 0
  refine hr.independent.size_eq hs.tidy.independent
    ((hrows _).mpr ((hr.solves_iff _).mpr hsolution)) fun v => ?_
  rw [hrows v, hr.solves_iff v]
  exact Iff.rfl

/-! ## Symbols -/

/-- Between operations nothing is queued, so a tableau mentions nothing that neither an equation nor
the charge depends on. -/
theorem Sound.not_mentions_of_ignores (hs : s.Sound exact quiet)
    (hartificial : s.tableau.artificial = none) (hk : Ignores s.Equations k)
    (hcost : CostIgnores s.charge k) : ¬ s.tableau.Mentions k := by
  have hr := hs.tableau.prepared.represents
  intro hmentions
  cases hmentions with
  | basic hb =>
    rw [hr.isBasic_eq_false hk] at hb
    cases hb
  | queued hq =>
    rw [hs.tableau.queue] at hq
    cases hq
  | row hrow hmem =>
    exact (hr.proper_row hrow).contains_iff.mp hmem (hr.coefficientFor_eq_zero hk hrow)
  | @target target row htarget hmem =>
    cases target with
    | objective =>
      cases htarget
      exact hr.proper_objective.contains_iff.mp hmem (hr.objective_coefficientFor_eq_zero hk hcost)
    | artificial =>
      rw [Tableau.targetRow, hartificial] at htarget
      cases htarget

/-- Whatever a tableau mentions between operations is of concern. -/
theorem Sound.concerns_of_mentions (hs : s.Sound exact quiet)
    (hartificial : s.tableau.artificial = none) (hk : s.tableau.Mentions k) : s.Concerns k := by
  by_contra hnot
  exact hs.not_mentions_of_ignores hartificial (hs.tidy.ignores_of_not_concerns hnot)
    (charge_ignores fun h r hr hmem => hnot (.inr ⟨h, r, hr, hmem⟩)) hk

/-- A symbol that a tableau mentions belongs to a constraint that is held. -/
theorem Sound.belongs_of_mentions (hs : s.Sound exact quiet)
    (hartificial : s.tableau.artificial = none) (hk : s.tableau.Mentions k)
    (hinternal : k.internal = true) :
    ∃ h r, s.constraints.get? h = some r ∧ k ∈ h.markers := by
  refine (hs.concerns_of_mentions hartificial hk).resolve_left fun hfree => ?_
  rw [Key.internal_of_unrestricted hfree] at hinternal
  cases hinternal

/-- Nothing mentions the symbols of a constraint that has gone. -/
theorem Sound.not_mentions_of_gone {s' : State Rat} (hs : s.Sound exact quiet)
    (hs' : s'.Sound exact quiet) (hartificial : s'.tableau.artificial = none)
    (hr : s.constraints.get? h = some r)
    (hconstraints : s'.constraints = (s.unregister h).constraints) (hk : k ∈ h.markers) :
    ¬ s'.tableau.Mentions k := by
  intro hmentions
  obtain ⟨h', r', hr', hk'⟩ := hs'.belongs_of_mentions hartificial hmentions
    ((hs.tidy.fits h r hr).internal hk)
  rw [hconstraints] at hr'
  obtain ⟨hne, hkept⟩ := get?_of_unregister hr hr'
  exact hne (hs.tidy.apart h' r' h r k hkept hr hk' hk)

end State

/-! ## One operation -/

namespace Solver

open Attempt

section Operations

variable {α : Type} [Scalar α] {s : Solver α} {o : Operation α} {P : Solver α → Prop}

/-- An operation that inserts a constraint does nothing else to the books but for the edit
variables. -/
theorem ensures_perform_of_added {c : Constraint α} {w : Strength α}
    (hadded : o.added s = some (c, w))
    (hedits : ∀ (s : Solver α) edits, P s → P { s with state := { s.state with edits := edits } })
    (hinsert : Ensures (insert c w) s (fun _ => P) fun _ _ => True) :
    Ensures (perform o) s (fun _ => P) fun _ _ => True := by
  cases o with
  | insert c w =>
    cases hadded
    exact ensures_map _ |>.mpr hinsert
  | startEdit x w =>
    cases hadded
    exact ensures_bind _ |>.mpr (ensures_startEdit_of (fun _ => trivial) (fun _ => trivial)
      fun _ _ => hinsert.imp (fun _ _ hs' => hedits _ _ hs') fun _ _ => id)
  | _ => cases hadded

/-- An operation that removes a constraint does nothing else to the books but for the edit
variables. -/
theorem ensures_perform_of_removes {h : Handle} (hremoves : o.removes s = some h)
    (hedits : ∀ (s : Solver α) edits, P s → P { s with state := { s.state with edits := edits } })
    (hremove : Ensures (remove h) s (fun gone s' => gone = true → P s') fun _ _ => True) :
    Ensures (perform o) s (fun answer s' => answer ≠ .removed false → P s') fun _ _ => True := by
  cases o with
  | remove h =>
    cases hremoves
    refine ensures_map _ |>.mpr (hremove.imp (fun gone s' hs' hanswer => hs' ?_) fun _ _ => id)
    cases gone with
    | true => rfl
    | false => exact absurd rfl hanswer
  | stopEdit x =>
    obtain ⟨e, he, rfl⟩ := Option.map_eq_some_iff.mp hremoves
    simp only [perform, stopEdit, ensures_bind, ensures_get, he]
    refine hremove.imp (fun gone s' hs' => ?_) fun _ _ => id
    cases gone with
    | false => exact trivial
    | true => exact fun _ => hedits _ _ (hs' rfl)
  | _ => cases hremoves

end Operations

variable {s : Solver Rat} {config : Config Rat} {o : Operation Rat} {c : Constraint Rat}
  {w : Strength Rat} {h : Handle}

/-- An operation that is not refused has succeeded. -/
theorem exists_answer_of_not_refused (haccepted : refused (s.step o).1 = false) :
    ∃ answer, (s.step o).1 = .ok answer ∧ answer ≠ .removed false := by
  cases hanswer : (s.step o).1 with
  | error cause =>
    rw [hanswer] at haccepted
    cases haccepted
  | ok answer =>
    rw [hanswer] at haccepted
    exact ⟨answer, rfl, of_decide_eq_false haccepted⟩

/-- The number of constraints after an insertion. -/
theorem Sound.size_constraints_of_added (hs : s.Sound False False) (hrest : s.AtRest config)
    (hpoisoned : s.poisoned = false) (ho : o.Lawful False) (hadded : o.added s = some (c, w))
    (haccepted : refused (s.step o).1 = false) :
    (s.step o).2.poisoned = false ∧
      (s.step o).2.state.constraints.size = s.state.constraints.size + 1 := by
  obtain ⟨answer, hanswer, -⟩ := exists_answer_of_not_refused haccepted
  have hlayout : c.OverLayout := by
    cases o with
    | insert => cases hadded; exact ho.1
    | startEdit x w => cases hadded; exact x.overLayout_heldAt _
    | _ => cases hadded
  refine (ensures_perform_of_added
    (P := fun s' => s'.poisoned = false ∧
      s'.state.constraints.size = s.state.constraints.size + 1) hadded (fun _ _ => id)
    ((ensures_insert_sound hrest hs hlayout False.elim).imp ?_ fun _ _ _ => trivial)).of_ok hanswer
  rintro h s' ⟨hkept, -, ⟨hnew, -⟩, hconstraints, -⟩
  refine ⟨hkept.trans hpoisoned, ?_⟩
  rw [hconstraints]
  exact Table.size_insert hnew

/-- What is held after a removal. -/
theorem Sound.constraints_of_removes (hs : s.Sound False False) (hrest : s.AtRest config)
    (hpoisoned : s.poisoned = false) (hremoves : o.removes s = some h)
    (haccepted : refused (s.step o).1 = false) :
    (s.step o).2.poisoned = false ∧
      ∃ r, s.state.constraints.get? h = some r ∧
        (s.step o).2.state.constraints = (s.state.unregister h).constraints := by
  obtain ⟨answer, hanswer, hgone⟩ := exists_answer_of_not_refused haccepted
  have hremove : Ensures (remove h) s
      (fun gone s' => gone = true → s'.poisoned = false ∧
        ∃ r, s.state.constraints.get? h = some r ∧
          s'.state.constraints = (s.state.unregister h).constraints) fun _ _ => True := by
    cases hr : s.state.constraints.get? h with
    | none =>
      exact ensures_remove_of (fun _ => nofun) fun r hsome => absurd (hr.symm.trans hsome) nofun
    | some r =>
      refine (ensures_remove_sound hrest hs h fun hexact => hexact.elim).imp ?_ fun _ _ _ => trivial
      rintro gone s' hdone rfl
      obtain ⟨hkept, -, hconstraints, -⟩ := hdone
      exact ⟨hkept.trans hpoisoned, r, rfl, hconstraints⟩
  exact (ensures_perform_of_removes
    (P := fun s' => s'.poisoned = false ∧ ∃ r, s.state.constraints.get? h = some r ∧
      s'.state.constraints = (s.state.unregister h).constraints) hremoves (fun _ _ => id)
    hremove).of_ok hanswer hgone

/-- A constraint that comes brings one row along. -/
theorem Sound.size_rows_of_added (hs : s.Sound False False) (hrest : s.AtRest config)
    (hpoisoned : s.poisoned = false) (ho : o.Lawful False) (hadded : o.added s = some (c, w))
    (haccepted : refused (s.step o).1 = false) :
    (s.step o).2.state.tableau.rows.size = s.state.tableau.rows.size + 1 := by
  obtain ⟨hpoisoned', hsize⟩ :=
    hs.size_constraints_of_added hrest hpoisoned ho hadded haccepted
  have hs' : (s.step o).2.Sound False False :=
    sound_step False.elim hrest (fun _ => hs) ho (fun hexact => hexact.elim) hpoisoned'
  rw [hs'.state.size_rows, hs.state.size_rows, hsize]

/-- A constraint that goes takes one row along, and its symbols. -/
theorem Sound.size_rows_of_removes (hs : s.Sound False False) (hrest : s.AtRest config)
    (hpoisoned : s.poisoned = false) (hremoves : o.removes s = some h)
    (haccepted : refused (s.step o).1 = false) :
    (s.step o).2.state.tableau.rows.size + 1 = s.state.tableau.rows.size ∧
      ∀ k ∈ h.markers, ¬ (s.step o).2.state.tableau.Mentions k := by
  obtain ⟨hpoisoned', r, hr, hconstraints⟩ :=
    hs.constraints_of_removes hrest hpoisoned hremoves haccepted
  have ho : o.Lawful False := by
    cases o with
    | insert | startEdit => cases hremoves
    | _ => trivial
  have hs' : (s.step o).2.Sound False False :=
    sound_step False.elim hrest (fun _ => hs) ho (fun hexact => hexact.elim) hpoisoned'
  have hrest' : (s.step o).2.AtRest config := (keeps_perform o).outcome hrest
  refine ⟨?_, fun k hk => hs.state.not_mentions_of_gone hs'.state hrest'.tableau.artificial hr
    hconstraints hk⟩
  rw [hs'.state.size_rows, hs.state.size_rows, hconstraints, State.unregister_eq hr]
  exact (Table.size_erase hr).symm

/-! ## Runs -/

variable {os : List (Operation Rat)}

/-- With any tolerance for signs, after any run that leaves the solver with values, in a batch or
not, a layout variable has a term only in rows of layout variables, and none in an objective. -/
theorem run_layered (hos : ∀ o ∈ os, o.Lawful False)
    (hpoisoned : ((ofConfig config).run os).poisoned = false) :
    (∀ k row, ((ofConfig config).run os).state.tableau.rows.get? k = some row →
      k.unrestricted = false → ∀ x, x.unrestricted = true → row.contains x = false) ∧
    ∀ target row, ((ofConfig config).run os).state.tableau.targetRow target = some row →
      ∀ x, x.unrestricted = true → row.contains x = false := by
  have hsound : ((ofConfig config).run os).Sound False False :=
    sound_run False.elim hos (fun hexact => hexact.elim) hpoisoned
  have hcanonical := hsound.state.tableau.prepared.canonical
  refine ⟨fun k row hrow hk x hx => ?_, fun target row hrow x hx => ?_⟩
  · exact (hcanonical.represents.proper_row hrow).contains_eq_false_iff.mpr
      (hcanonical.layered.row hrow hk hx)
  · exact (hcanonical.represents.proper_target hrow).contains_eq_false_iff.mpr
      (hcanonical.layered.target hrow hx)

/-- Three variables at fixed distances, of which the middle one has a weak target and a bound. -/
def tied : List (Operation Rat) :=
  [.insert ((Variable.external 1).heldAt 4) .weak,
    .insert (.ofFormulas (.var (.external 0)) .equal (.add (.var (.external 1)) (.number 3)))
      .required,
    .insert (.ofFormulas (.var (.external 2)) .equal (.add (.var (.external 0)) (.number 1)))
      .required,
    .insert (.ofFormulas (.var (.external 1)) .lessOrEqual (.number 2)) .required]

/-- The handle of the weak target. -/
def weakTarget : Handle := ⟨.ofIndex .error false 0, some (.ofIndex .error false 1)⟩

theorem lawful_tied : ∀ o ∈ tied, o.Lawful False := by
  intro o ho
  simp only [tied, List.mem_cons, List.not_mem_nil, or_false] at ho
  rcases ho with rfl | rfl | rfl | rfl
  · exact ⟨Variable.overLayout_heldAt _ _, False.elim⟩
  all_goals exact ⟨Constraint.overLayout_reduce _ _ _, False.elim⟩

/-- The constraint on the first distance is removed. -/
def released : List (Operation Rat) := tied ++ [.remove ⟨.ofIndex .dummy false 2, none⟩]

/-- The marker of the first distance takes the place of the last variable, which the row of the
first one mentions from then on. -/
theorem run_layered_released :
    (((ofConfig ⟨1e-3, true, 100⟩).run released).state.tableau.rows.get?
      (Variable.external 0).key).any (·.contains (Variable.external 2).key) = true ∧
    ((ofConfig ⟨1e-3, true, 100⟩).run released).state.tableau.isBasic (.ofIndex .error false 0) =
      true ∧
    (∀ k row, ((ofConfig ⟨1e-3, true, 100⟩).run released).state.tableau.rows.get? k = some row →
      k.unrestricted = false → row.contains (Variable.external 2).key = false) ∧
    ∀ target row, ((ofConfig ⟨1e-3, true, 100⟩).run released).state.tableau.targetRow target =
      some row → row.contains (Variable.external 2).key = false := by
  have hlawful : ∀ o ∈ released, o.Lawful False := by
    intro o ho
    rcases List.mem_append.mp ho with ho | ho
    · exact lawful_tied o ho
    · rw [List.mem_singleton.mp ho]
      exact trivial
  have hrun := @run_layered ⟨1e-3, true, 100⟩ _ hlawful (by decide +kernel)
  exact ⟨by decide +kernel, by decide +kernel, fun k row hrow hk => hrun.1 k row hrow hk _ rfl,
    fun target row hrow => hrun.2 target row hrow _ rfl⟩

/-- With any tolerance for signs, after any run that leaves the solver with values, in a batch or
not, there are as many rows as constraints, and whatever the tableau mentions is a layout variable
or a symbol of a constraint that is held, and not an artificial variable. So an operation that
inserts a constraint adds one row. One that removes a constraint takes one row away, and leaves no
trace of the symbols of the constraint. -/
theorem run_size_rows (hos : ∀ o ∈ os, o.Lawful False)
    (hpoisoned : ((ofConfig config).run os).poisoned = false) :
    ((ofConfig config).run os).stats.rows = ((ofConfig config).run os).stats.constraints ∧
    (∀ k, ((ofConfig config).run os).state.tableau.Mentions k → k.unrestricted = true ∨
      k.kind ≠ .artificial ∧ ∃ h, ((ofConfig config).run os).holds h = true ∧ k ∈ h.markers) ∧
    (∀ o : Operation Rat, o.Lawful False → (o.added ((ofConfig config).run os)).isSome = true →
      refused (((ofConfig config).run os).step o).1 = false →
      (((ofConfig config).run os).step o).2.stats.rows =
        ((ofConfig config).run os).stats.rows + 1) ∧
    ∀ (o : Operation Rat) h, o.removes ((ofConfig config).run os) = some h →
      refused (((ofConfig config).run os).step o).1 = false →
      (((ofConfig config).run os).step o).2.stats.rows + 1 =
        ((ofConfig config).run os).stats.rows ∧
      ∀ k ∈ h.markers, ¬ (((ofConfig config).run os).step o).2.state.tableau.Mentions k := by
  have hrest : ((ofConfig config).run os).AtRest config := Reachable.atRest ⟨os, rfl⟩
  have hsound : ((ofConfig config).run os).Sound False False :=
    sound_run False.elim hos (fun hexact => hexact.elim) hpoisoned
  refine ⟨hsound.state.size_rows, fun k hk => ?_, fun o ho hadded haccepted => ?_,
    fun o h hremoves haccepted => hsound.size_rows_of_removes hrest hpoisoned hremoves haccepted⟩
  · refine (hsound.state.concerns_of_mentions hrest.tableau.artificial hk).imp_right ?_
    rintro ⟨h, r, hr, hmem⟩
    refine ⟨fun hkind => ?_, h, Option.isSome_iff_exists.mpr ⟨r, hr⟩, hmem⟩
    have hfits := (hsound.state.tidy.fits h r hr).kind hmem
    rw [Key.pivotable, Key.dummy, hkind] at hfits
    rcases hfits with hfits | hfits <;> cases hfits
  · obtain ⟨⟨c, w⟩, hadded⟩ := Option.isSome_iff_exists.mp hadded
    exact hsound.size_rows_of_added hrest hpoisoned ho hadded haccepted

/-- The weak target goes, one of whose errors is basic while the other one is in the objective. -/
theorem run_size_rows_tied :
    ((ofConfig ⟨1e-3, true, 100⟩).run tied).stats.rows = 4 ∧
    ((ofConfig ⟨1e-3, true, 100⟩).run tied).state.tableau.isBasic (.ofIndex .error false 0) = true ∧
    ((ofConfig ⟨1e-3, true, 100⟩).run tied).state.tableau.Mentions (.ofIndex .error false 1) ∧
    (((ofConfig ⟨1e-3, true, 100⟩).run tied).step (.remove weakTarget)).2.stats.rows + 1 = 4 ∧
    ∀ k ∈ weakTarget.markers, ¬ (((ofConfig ⟨1e-3, true, 100⟩).run tied).step
      (.remove weakTarget)).2.state.tableau.Mentions k := by
  have hrun := @run_size_rows ⟨1e-3, true, 100⟩ _ lawful_tied (by decide +kernel)
  obtain ⟨hrows, hgone⟩ := hrun.2.2.2 (.remove weakTarget) _ rfl (by decide +kernel)
  have hfour : ((ofConfig ⟨1e-3, true, 100⟩).run tied).stats.rows = 4 :=
    hrun.1.trans (by decide +kernel)
  have htarget : ((ofConfig ⟨1e-3, true, 100⟩).run tied).state.tableau.targetRow .objective =
      some ((ofConfig ⟨1e-3, true, 100⟩).run tied).state.tableau.objective := rfl
  exact ⟨hfour, by decide +kernel, .target htarget (by decide +kernel), hrows.trans hfour, hgone⟩

end Solver

end Cassowary
