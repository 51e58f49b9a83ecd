import Cassowary.Proofs.Satisfiability

/-!
# The answer to an insertion

In exact arithmetic the answer to an insertion does not depend on the basis that the tableau happens
to have. The symbols of a constraint are given out in order. One more symbol is given out for an
artificial variable, if the equation has neither a layout variable nor a symbol of its own to be
solved for, and does not say something about dummies alone. Both can be told from the solutions: a
row has no terms but those of certain keys if the values of these keys settle its value. The rest of
the answer is whether the required constraints can be met.

So the answer can be told from the books and the next index, but for the limit on pivots.

## Main definitions

* `Settles` — the values of some keys settle the value of a function
* `Handle.issue`, `Handle.Hidden`, `Constraint.reserve` — the symbols that an insertion gives out
* `State.verdict` — the answer to an insertion, told without a tableau

## Main results

* `Row.Encodes.settles_iff` — the keys of a row, told from the solutions
* `Tableau.ensures_addConstraint_reserve` — the symbols that an insertion gives out
* `Solver.ensures_insert_verdict` — an insertion is answered by its verdict
-/

namespace Cassowary

open Attempt

/-! ## The keys of a row -/

/-- On a set of assignments, the values of some keys settle the value of a function. -/
def Settles (P : Key → Prop) (S : Assignment Rat → Prop) (f : Assignment Rat → Rat) : Prop :=
  ∀ v w, S v → S w → (∀ k, P k → v k = w k) → f v = f w

/-- If rows of certain keys have terms of such keys only, then so has a row whose value they settle,
and no other one. -/
theorem Row.Encodes.settles_iff {row : Row Rat} {t : Tableau Rat} {S : Assignment Rat → Prop}
    {cost f : Assignment Rat → Rat} (h : row.Encodes t S f) (hr : t.Represents S cost)
    {P : Key → Prop} (hclosed : ∀ k r, t.rows.get? k = some r → P k →
      ∀ k', r.coefficientFor k' ≠ 0 → P k') :
    Settles P S f ↔ ∀ k, row.coefficientFor k ≠ 0 → P k := by
  obtain ⟨sign, hsign, hvalue⟩ := h.value
  constructor
  · intro hsettles k hk
    by_contra hnot
    -- Moving a key of the row that is not basic moves none of the others, and the value of the row
    have hsame : ∀ k', P k' → t.complete (fun _ => 0) k' =
        t.complete (Function.update (fun _ => 0) k 1) k' := by
      intro k' hk'
      have hne : k' ≠ k := fun heq => hnot (heq ▸ hk')
      cases hrow' : t.rows.get? k' with
      | none =>
        have hbasic := Tableau.isBasic_eq_false_iff.mpr hrow'
        rw [Tableau.complete_of_isBasic_eq_false hbasic, Tableau.complete_of_isBasic_eq_false hbasic,
          Function.update_of_ne hne]
      | some r =>
        have hzero : r.coefficientFor k = 0 := by_contra fun h => hnot (hclosed k' r hrow' hk' k h)
        rw [Tableau.complete_of_get? hrow', Tableau.complete_of_get? hrow', Row.evaluate_update,
          hzero, zero_mul, add_zero]
    have hv := hr.solves_complete fun _ => 0
    have hw := hr.solves_complete (Function.update (fun _ => 0) k 1)
    have hmoved : row.evaluate (t.complete fun _ => 0) =
        row.evaluate (t.complete (Function.update (fun _ => 0) k 1)) := by
      rw [hvalue _ hv, hvalue _ hw, hsettles _ _ hv hw hsame]
    rw [Tableau.evaluate_complete h.over_tableau h.proper,
      Tableau.evaluate_complete h.over_tableau h.proper, Row.evaluate_update] at hmoved
    exact hk (by linarith)
  · intro hall v w hv hw hsame
    have heq : row.evaluate v = row.evaluate w :=
      Row.evaluate_congr fun k hk => hsame k (hall k hk)
    rw [hvalue v hv, hvalue w hw] at heq
    refine mul_left_cancel₀ (a := sign) ?_ heq
    rcases hsign with rfl | rfl <;> norm_num

/-! ## Symbols that are given out -/

namespace Handle

/-- The kinds of the symbols that a constraint gets: that of its marker, and that of the other one
if it has another one. -/
def kinds : Relation → Bool → Kind × Option Kind
  | .lessOrEqual, true => (.slack, none)
  | .lessOrEqual, false => (.slack, some .error)
  | .equal, true => (.dummy, none)
  | .equal, false => (.error, some .error)

/-- The symbols that a constraint gets from the index `n` on, and the next index after them. -/
def issue (relation : Relation) (required : Bool) (n : Nat) : Except SolverError (Handle × Nat) := do
  let marker ← Key.allocate (kinds relation required).1 false n
  match (kinds relation required).2 with
  | none => pure (⟨marker, none⟩, n + 1)
  | some kind =>
    let other ← Key.allocate kind false (n + 1)
    pure (⟨marker, some other⟩, n + 2)

section Issue

variable {relation : Relation} {required : Bool} {kind kind' : Kind} {k k' : Key} {n : Nat}
  {cause : SolverError}

theorem issue_eq_error {other : Option Kind} (hkinds : kinds relation required = (kind, other))
    (hk : Key.allocate kind false n = .error cause) : issue relation required n = .error cause := by
  simp only [issue, hkinds, hk]
  rfl

theorem issue_eq_ok_single (hkinds : kinds relation required = (kind, none))
    (hk : Key.allocate kind false n = .ok k) :
    issue relation required n = .ok (⟨k, none⟩, n + 1) := by
  simp only [issue, hkinds, hk]
  rfl

theorem issue_eq_error_pair (hkinds : kinds relation required = (kind, some kind'))
    (hk : Key.allocate kind false n = .ok k)
    (hk' : Key.allocate kind' false (n + 1) = .error cause) :
    issue relation required n = .error cause := by
  simp only [issue, hkinds, hk, hk']
  rfl

theorem issue_eq_ok_pair (hkinds : kinds relation required = (kind, some kind'))
    (hk : Key.allocate kind false n = .ok k) (hk' : Key.allocate kind' false (n + 1) = .ok k') :
    issue relation required n = .ok (⟨k, some k'⟩, n + 2) := by
  simp only [issue, hkinds, hk, hk']
  rfl

end Issue

/-- The constraint that a dummy marks has no symbol that may enter the basis. -/
theorem Fits.pivotable_of_dummy {h : Handle} {relation : Relation} {required : Bool}
    (hfits : h.Fits relation required) (hdummy : h.marker.dummy = true) {k : Key}
    (hk : k ∈ h.markers) : k.pivotable = false := by
  have hmarker : h.marker.pivotable = false := Bool.eq_false_iff.mpr fun hp => by
    rw [Key.dummy_of_pivotable hp] at hdummy
    cases hdummy
  rcases mem_markers.mp hk with rfl | hother
  · exact hmarker
  · rw [(hfits.pivotable_of_other hother).1] at hmarker
    cases hmarker

/-- An equation that has no variable of its own to be solved for, and that dummies alone do not
settle. -/
def Hidden (h : Handle) (S : Assignment Rat → Prop) (f : Assignment Rat → Rat) : Prop :=
  h.marker.dummy = true ∧ Settles (·.unrestricted = false) S f ∧ ¬ Settles (·.dummy = true) S f

end Handle

open Classical in
/-- The next index after an insertion that needs an artificial variable or does not. -/
noncomputable def Tableau.spend (needed : Prop) (n : Nat) : Except SolverError Nat :=
  if needed then (Key.allocate .artificial false n).map fun _ => n + 1 else .ok n

/-- The symbols that a constraint gets beside equations with the solutions `S`, and the next index
after its insertion. -/
noncomputable def Constraint.reserve (c : Constraint Rat) (w : Strength Rat)
    (S : Assignment Rat → Prop) (n : Nat) : Except SolverError (Handle × Nat) := do
  let (h, n) ← Handle.issue c.relation w.isRequired n
  let n ← Tableau.spend (h.Hidden S (c.equation h)) n
  pure (h, n)

/-- What a failure tells of an action that is expected to end in a certain way: it has hit the limit
on pivots, or the action is expected to fail so, or there were symbols enough and it failed for
another reason. -/
def SolverError.Tells {β : Type} (expected : Except SolverError β) (cause : SolverError) : Prop :=
  (∃ n, cause = .iterationLimit n) ∨ expected = .error cause ∨
    (∀ i, cause ≠ .indexSpaceExhausted i) ∧ ∃ b, expected = .ok b

theorem Constraint.reserve_of_issue {c : Constraint Rat} {w : Strength Rat}
    {S : Assignment Rat → Prop} {h : Handle} {n n' : Nat}
    (hissue : Handle.issue c.relation w.isRequired n = .ok (h, n')) :
    c.reserve w S n = (Tableau.spend (h.Hidden S (c.equation h)) n').map (h, ·) := by
  rw [reserve, hissue]
  rfl

theorem SolverError.Tells.map {β γ : Type} {expected : Except SolverError β} {cause : SolverError}
    (h : Tells expected cause) (g : β → γ) : Tells (expected.map g) cause := by
  rcases h with hlimit | rfl | ⟨hne, b, rfl⟩
  · exact .inl hlimit
  · exact .inr (.inl rfl)
  · exact .inr (.inr ⟨hne, g b, rfl⟩)

namespace Tableau

variable {t : Tableau Rat} {S : Assignment Rat → Prop} {cost f : Assignment Rat → Rat}
  {row : Row Rat} {k : Key} {handle : Handle}

/-- An action that gives out no symbols, and does not ask for any. -/
def SpendsNothing {β : Type} (action : Attempt (Tableau Rat) β) : Prop :=
  ∀ t, Ensures action t (fun _ t' => t'.nextId = t.nextId)
    fun cause _ => ∀ i, cause ≠ .indexSpaceExhausted i

namespace SpendsNothing

theorem modify {g : Tableau Rat → Tableau Rat} (h : ∀ t, (g t).nextId = t.nextId) :
    SpendsNothing (modify g) := h

theorem bind {β γ : Type} {action : Attempt (Tableau Rat) β} {g : β → Attempt (Tableau Rat) γ}
    (h : SpendsNothing action) (hg : ∀ b, SpendsNothing (g b)) :
    SpendsNothing (action >>= g) := by
  intro t
  rw [ensures_bind]
  refine (h t).imp (fun b t' ht' => ?_) fun _ _ => id
  exact (hg b t').imp (fun _ _ ht'' => ht''.trans ht') fun _ _ => id

theorem optimize (target : Target) : SpendsNothing (optimize target) := fun t =>
  ensures_iterate (P := fun t' => t'.nextId = t.nextId)
    (fun h hrule => (primalRule_finished hrule).1 ▸ h)
    (fun _ hrule i => by rw [(primalRule_impossible hrule).2.1]; nofun)
    (fun h hrule => (nextId_pivot _ _ _).trans ((primalRule_pivot hrule).1 ▸ h))
    (fun _ _ _ => nofun) _ rfl

theorem dualOptimize : SpendsNothing dualOptimize := fun t =>
  ensures_iterate (P := fun t' => t'.nextId = t.nextId)
    (fun h hrule => by rw [(dualRule_finished hrule).1]; exact h)
    (fun _ hrule i => by rw [(dualRule_impossible hrule).1]; nofun)
    (fun h hrule => by
      obtain ⟨_, rest, rfl, -⟩ := dualRule_pivot hrule
      exact (nextId_pivot _ _ _).trans h)
    (fun _ _ _ => nofun) _ rfl

theorem solve : SpendsNothing solve :=
  (optimize .objective).bind fun _ => dualOptimize.bind fun _ => modify fun _ => rfl

theorem finish (defer : Bool) : SpendsNothing (finish defer) := fun t =>
  ensures_finish_of (fun _ _ => rfl) fun _ => solve t

theorem prepareFor (row : Row Rat) (handle : Handle) : SpendsNothing (prepareFor row handle) :=
  fun t => ensures_prepareFor_of (fun _ => rfl) fun _ _ => solve t

theorem minimizeArtificial : SpendsNothing minimizeArtificial := by
  intro t
  rw [ensures_minimizeArtificial_iff]
  exact optimize .artificial t

theorem retireArtificial (a : Key) : SpendsNothing (retireArtificial a) := fun t =>
  ensures_retireArtificial_of (fun _ => rfl) (fun _ _ _ => nextId_eraseRow t a)
    (fun _ _ _ _ => nofun) fun _ _ _ _ => (nextId_eliminate _ _ _).trans (nextId_eraseRow t a)

end SpendsNothing

theorem ensures_newSymbol_allocate (kind : Kind) (t : Tableau Rat) :
    Ensures (newSymbol kind) t
      (fun k t' => Key.allocate kind false t.nextId = .ok k ∧ t'.nextId = t.nextId + 1)
      fun cause _ => Key.allocate kind false t.nextId = .error cause := by
  unfold Ensures newSymbol
  cases Key.allocate kind false t.nextId with
  | ok k => exact ⟨rfl, rfl⟩
  | error cause => rfl

theorem ensures_addMarkers_issue (row : Row Rat) (relation : Relation) (w : Strength Rat)
    (t : Tableau Rat) :
    Ensures (addMarkers row relation w) t
      (fun r t' => Handle.issue relation w.isRequired t.nextId = .ok (r.2, t'.nextId))
      fun cause _ => Handle.issue relation w.isRequired t.nextId = .error cause := by
  have hsingle : ∀ kind, Handle.kinds relation w.isRequired = (kind, none) →
      Ensures (newSymbol kind) t
        (fun k t' => Handle.issue relation w.isRequired t.nextId = .ok (⟨k, none⟩, t'.nextId))
        fun cause _ => Handle.issue relation w.isRequired t.nextId = .error cause := by
    intro kind hkinds
    refine (ensures_newSymbol_allocate kind t).imp ?_ fun cause _ => Handle.issue_eq_error hkinds
    rintro k t' ⟨hk, hid⟩
    rw [hid]
    exact Handle.issue_eq_ok_single hkinds hk
  have hpair : ∀ kind kind', Handle.kinds relation w.isRequired = (kind, some kind') →
      Ensures (newSymbol kind) t
        (fun k t₁ => Ensures (newSymbol kind') t₁
          (fun k' t' => Handle.issue relation w.isRequired t.nextId = .ok (⟨k, some k'⟩, t'.nextId))
          fun cause _ => Handle.issue relation w.isRequired t.nextId = .error cause)
        fun cause _ => Handle.issue relation w.isRequired t.nextId = .error cause := by
    intro kind kind' hkinds
    refine (ensures_newSymbol_allocate kind t).imp ?_ fun cause _ => Handle.issue_eq_error hkinds
    rintro k t₁ ⟨hk, hid⟩
    refine (ensures_newSymbol_allocate kind' t₁).imp ?_ fun cause _ => ?_
    · rintro k' t' ⟨hk', hid'⟩
      rw [hid', hid]
      exact Handle.issue_eq_ok_pair hkinds hk (hid ▸ hk')
    · intro hk'
      exact Handle.issue_eq_error_pair hkinds hk (hid ▸ hk')
  unfold addMarkers setPrice
  split
  · next hrequired =>
    simp only [ensures_bind, ensures_pure]
    exact hsingle .slack (by rw [hrequired]; rfl)
  · next hrequired =>
    simp only [ensures_bind, ensures_pure, ensures_modify]
    exact hpair .slack .error (by rw [hrequired]; rfl)
  · next hrequired =>
    simp only [ensures_bind, ensures_pure]
    exact hsingle .dummy (by rw [hrequired]; rfl)
  · next hrequired =>
    simp only [ensures_bind, ensures_pure, ensures_modify]
    exact hpair .error .error (by rw [hrequired]; rfl)

theorem ensures_createRow_issue (c : Constraint Rat) (w : Strength Rat) (t : Tableau Rat) :
    Ensures (createRow c w) t
      (fun r t' => Handle.issue c.relation w.isRequired t.nextId = .ok (r.2, t'.nextId))
      fun cause _ => Handle.issue c.relation w.isRequired t.nextId = .error cause :=
  ensures_createRow_of (ensures_addMarkers_issue _ _ w t)

/-- An artificial variable is asked for at once, and no other symbol after it. -/
theorem ensures_addWithArtificial_spend (row : Row Rat) (t : Tableau Rat) {needed : Prop}
    (hneeded : needed) :
    Ensures (addWithArtificial row) t (fun _ t' => spend needed t.nextId = .ok t'.nextId)
      fun cause _ => SolverError.Tells (spend needed t.nextId) cause := by
  unfold addWithArtificial
  rw [ensures_bind]
  refine (ensures_newSymbol_allocate .artificial t).imp ?_ fun cause _ hcause => ?_
  · rintro a t₁ ⟨ha, hid⟩
    have hspend : spend needed t.nextId = .ok (t.nextId + 1) := by
      rw [spend, if_pos hneeded, ha]
      rfl
    have htells : ∀ cause : SolverError, (∀ i, cause ≠ .indexSpaceExhausted i) →
        SolverError.Tells (spend needed t.nextId) cause := fun _ hne => .inr (.inr ⟨hne, _, hspend⟩)
    rw [ensures_bind, ensures_modify, ensures_bind]
    refine (SpendsNothing.minimizeArtificial _).imp ?_ fun cause _ => htells cause
    intro residual t₂ hid₂
    rw [ensures_bind, ensures_get]
    split
    · exact htells _ fun _ => nofun
    · rw [ensures_bind]
      refine (SpendsNothing.retireArtificial a t₂).imp ?_ fun cause _ => htells cause
      intro _ t₃ hid₃
      rw [ensures_modify, nextId_dropColumn, hid₃, hid₂, hspend]
      exact congrArg Except.ok hid.symm
  · rw [spend, if_pos hneeded, hcause]
    exact .inr (.inl rfl)

/-- A failure that tells nothing whatever the equations and the cost are, and that is not for want
of symbols, is for want of pivots. -/
theorem exists_limit_of_certified {cause : SolverError}
    (hcertified : ∀ S' cost', Certified True True S' cost' cause) (hne : cause ≠ .unsatisfiable)
    (hindex : ∀ i, cause ≠ .indexSpaceExhausted i) : ∃ n, cause = .iterationLimit n := by
  have hzero : Bounded (fun _ => True) fun _ => 0 := ⟨0, fun _ _ _ => le_rfl⟩
  have hcertificate := hcertified (fun _ => True) fun _ => 0
  cases cause with
  | iterationLimit n => exact ⟨n, rfl⟩
  | unsatisfiable => exact absurd rfl hne
  | unbounded => exact absurd hzero (hcertificate trivial)
  | indexSpaceExhausted i => exact absurd rfl (hindex i)
  | _ => exact hcertificate.elim

/-- Catching up on what was put off fails for want of pivots only. -/
theorem ensures_solve_limit (h : t.Sound True True S cost) (hbounded : Bounded S cost) :
    Ensures solve t (fun _ t' => t'.nextId = t.nextId)
      fun cause _ => ∃ n, cause = .iterationLimit n :=
  ((ensures_solve_of_sound h fun _ => hbounded).and (SpendsNothing.solve t)).imp
    (fun _ _ h => h.2) fun _ _ ⟨⟨hcertified, hnot⟩, hindex⟩ =>
      exists_limit_of_certified hcertified (fun hcause => hnot hcause trivial) hindex

theorem ensures_prepareFor_limit (h : t.Sound True True S cost) (hbounded : Bounded S cost)
    (hrow : row.Encodes t S f) :
    Ensures (prepareFor row handle) t
      (fun row' t' => t'.Sound True True S cost ∧ row'.Encodes t' S f ∧ t'.nextId = t.nextId)
      fun cause _ => ∃ n, cause = .iterationLimit n :=
  ((ensures_prepareFor h (fun _ => hbounded) hrow).and
    (SpendsNothing.prepareFor row handle t)).imp (fun _ _ h => ⟨h.1.1, h.1.2.1, h.2⟩)
    fun _ _ ⟨⟨hcertified, hnot⟩, hindex⟩ =>
      exists_limit_of_certified hcertified (fun hcause => hnot hcause trivial) hindex

/-- In a sound tableau, a row has no terms but those of symbols if the symbols settle its value, and
none but those of dummies if the dummies do. -/
theorem Sound.hidden_iff (h : t.Sound True True S cost) (hrow : row.Encodes t S f) :
    handle.Hidden S f ↔ handle.marker.dummy = true ∧
      (∀ k, k.unrestricted = true → row.coefficientFor k = 0) ∧
      ¬ ∀ k, row.coefficientFor k ≠ 0 → k.dummy = true := by
  have hr := h.prepared.represents
  have hsymbols := hrow.settles_iff hr (P := (·.unrestricted = false)) fun k r hr hk k' hk' =>
    Bool.eq_false_iff.mpr fun hu => hk' (h.prepared.canonical.layered.row hr hk hu)
  have hdummies := hrow.settles_iff hr (P := (·.dummy = true)) fun k r hr hk =>
    (h.prepared.idle trivial trivial k r hr hk).2
  rw [Handle.Hidden, hsymbols, hdummies]
  refine and_congr_right fun _ => and_congr_left fun _ => forall_congr' fun k => ?_
  rw [not_imp_comm, Bool.not_eq_false]

/-- An equation without a variable to be solved for is hidden if its row has more than dummies, and
only then. -/
theorem Sound.hidden_iff_of_subject?_eq_none (h : t.Sound True True S cost)
    (hrow : row.Encodes t S f) (hmarks : handle.Marks S cost f)
    (hsubject : row.subject? handle = none) : handle.Hidden S f ↔ ¬ row.allDummies = true := by
  obtain ⟨hdummy, -, hfree⟩ :=
    hmarks.dummy_of_subject?_eq_none hrow h.prepared.represents hsubject
  rw [h.hidden_iff hrow, Row.allDummies_iff hrow.proper]
  exact ⟨fun h => h.2.2, fun h => ⟨hdummy, hfree, h⟩⟩

/-- The insertion of an equation asks for an artificial variable if the equation is hidden. -/
theorem ensures_insertRow_spend (h : t.Sound True True S cost) (hbounded : Bounded S cost)
    (hrow : row.Encodes t S f) (hmarks : handle.Marks S cost f) :
    Ensures (insertRow row handle) t
      (fun _ t' => spend (handle.Hidden S f) t.nextId = .ok t'.nextId)
      fun cause _ => SolverError.Tells (spend (handle.Hidden S f) t.nextId) cause := by
  refine ensures_insertRow_of ((ensures_prepareFor_limit h hbounded hrow).imp (fun _ _ => id)
    fun _ _ => .inl) ?_ ?_ ?_ ?_
  all_goals clear hrow h
  · rintro row t' subject ⟨h, hrow, hid⟩ hsubject
    have hnot : ¬ handle.Hidden S f := by
      rw [h.hidden_iff hrow]
      rintro ⟨hdummy, hfree, -⟩
      obtain ⟨_, _, hfits⟩ := hmarks.fits
      have hnone : ∀ k ∈ handle.markers, ¬ k.pivotable = true := fun k hk =>
        Bool.eq_false_iff.mp (hfits.pivotable_of_dummy hdummy hk)
      have hsuits := Row.subject?_suits hrow.proper hsubject
      cases subject with
      | free k => exact hsuits.2 (hfree k hsuits.1)
      | feasible k => exact hnone k hsuits.1.1 hsuits.1.2.1
      | infeasible k => exact hnone k hsuits.1.1 hsuits.1.2.1
    rw [← hid, spend, if_neg hnot]
    exact congrArg Except.ok (nextId_enter _ _ _).symm
  · rintro row t' ⟨h, hrow, -⟩ hsubject hall -
    rw [spend, if_neg fun hhidden =>
      (h.hidden_iff_of_subject?_eq_none hrow hmarks hsubject).mp hhidden hall]
    exact .inr (.inr ⟨fun _ => nofun, _, rfl⟩)
  · rintro row t' ⟨h, hrow, hid⟩ hsubject hall -
    rw [← hid, spend, if_neg fun hhidden =>
      (h.hidden_iff_of_subject?_eq_none hrow hmarks hsubject).mp hhidden hall]
    exact congrArg Except.ok (nextId_enter _ _ _).symm
  · rintro row t' ⟨h, hrow, hid⟩ hsubject hall
    rw [← hid]
    exact ensures_addWithArtificial_spend row t'
      ((h.hidden_iff_of_subject?_eq_none hrow hmarks hsubject).mpr hall)

/-- The whole insertion gives out the symbols that are reserved for the constraint. -/
theorem ensures_addConstraint_reserve (h : t.Sound True True S cost)
    (hnew : ∀ k, ¬ t.Known k → CostIgnores cost k)
    (hnonneg : ∀ v : Assignment Rat, v.Nonnegative → 0 ≤ cost v)
    {c : Constraint Rat} (hc : c.OverLayout) {w : Strength Rat} (hw : 0 ≤ w.value)
    (defer : Bool) :
    Ensures (addConstraint c w defer) t
      (fun handle t' => c.reserve w S t.nextId = .ok (handle, t'.nextId))
      fun cause _ => SolverError.Tells (c.reserve w S t.nextId) cause := by
  unfold addConstraint
  rw [ensures_bind]
  refine ((ensures_createRow h hc fun _ => hw).and (ensures_createRow_issue c w t)).imp ?_ ?_
  · rintro ⟨row, handle⟩ t₁ ⟨⟨hfits, hfresh, h₁, hrow⟩, hissue⟩
    dsimp only at hfits hfresh h₁ hrow hissue ⊢
    rw [Constraint.reserve_of_issue hissue, ensures_bind]
    refine (ensures_insertRow_spend h₁ (hfits.bounded_price hnonneg hw) hrow
      (h.prepared.represents.marks hnew hc w hfits hfresh)).imp ?_ fun _ _ h => h.map _
    intro _ t₂ hspend
    rw [hspend, ensures_bind]
    refine (SpendsNothing.finish defer t₂).imp (fun _ t₃ hid => ?_) fun cause _ hne => ?_
    · rw [ensures_pure, hid]
      rfl
    · exact .inr (.inr ⟨hne, _, rfl⟩)
  · rintro cause t₁ ⟨-, hissue⟩
    refine .inr (.inl ?_)
    rw [Constraint.reserve, hissue]
    rfl

end Tableau

/-! ## Verdicts -/

open Classical in
/-- The answer to an insertion, told without a tableau: there have to be symbols enough, and then
the required constraints have to be such that some values meet them. With the symbols comes the next
index. -/
noncomputable def State.verdict (s : State Rat) (c : Constraint Rat) (w : Strength Rat) :
    Except SolverError (Handle × Nat) := do
  let reserved ← c.reserve w s.Equations s.tableau.nextId
  if ∃ v, s.Feasible v ∧ (w.isRequired = true → c.Holds v) then pure reserved
  else throw .unsatisfiable

/-- Two states are alike if they hold the same constraints under the same symbols, and the same
symbols come next. Nothing is said of the rows. -/
structure State.Alike (s s' : State Rat) : Prop where
  constraints : s'.constraints = s.constraints
  edits : s'.edits = s.edits
  references : s'.references = s.references
  nextId : s'.tableau.nextId = s.tableau.nextId

namespace State

variable {s s' : State Rat} {c : Constraint Rat} {w : Strength Rat} {reserved : Handle × Nat}

theorem Alike.refl (s : State Rat) : s.Alike s := ⟨rfl, rfl, rfl, rfl⟩

theorem Alike.trans {s'' : State Rat} (h : s.Alike s') (h' : s'.Alike s'') : s.Alike s'' :=
  ⟨h'.constraints.trans h.constraints, h'.edits.trans h.edits, h'.references.trans h.references,
    h'.nextId.trans h.nextId⟩

theorem verdict_of_exists (hreserve : c.reserve w s.Equations s.tableau.nextId = .ok reserved)
    (hv : ∃ v, s.Feasible v ∧ (w.isRequired = true → c.Holds v)) :
    s.verdict c w = .ok reserved := by
  rw [verdict, hreserve]
  exact if_pos hv

theorem verdict_of_not_exists (hreserve : c.reserve w s.Equations s.tableau.nextId = .ok reserved)
    (hv : ¬ ∃ v, s.Feasible v ∧ (w.isRequired = true → c.Holds v)) :
    s.verdict c w = .error .unsatisfiable := by
  rw [verdict, hreserve]
  exact if_neg hv

theorem Alike.held_eq (h : s.Alike s') : s'.held = s.held := by
  unfold held current
  rw [h.constraints, h.edits]

/-- What is held says what a choice of values costs. -/
theorem cost_eq_of_held (h : s'.held = s.held) : s'.cost = s.cost := by
  funext v
  rw [cost, cost, h]

theorem optimal_eq_of_held (h : s'.held = s.held) : s'.Optimal = s.Optimal := by
  funext v
  unfold Optimal Feasible
  rw [h, cost_eq_of_held h]

theorem Alike.cost_eq (h : s.Alike s') : s'.cost = s.cost := cost_eq_of_held h.held_eq

theorem Alike.optimal_eq (h : s.Alike s') : s'.Optimal = s.Optimal := optimal_eq_of_held h.held_eq

theorem Alike.verdict_eq (h : s.Alike s') (c : Constraint Rat) (w : Strength Rat) :
    s'.verdict c w = s.verdict c w := by
  have hequations : s'.Equations = s.Equations := funext fun v =>
    propext (equations_of_eq h.constraints h.edits v)
  have hfeasible : s'.Feasible = s.Feasible := funext fun v =>
    propext (feasible_of_eq h.constraints h.edits v)
  rw [verdict, verdict, hequations, hfeasible, h.nextId]

end State

namespace Solver

variable {s : Solver Rat} {config : Config Rat} {c : Constraint Rat} {w : Strength Rat}

/-- A sound solver answers an insertion by its verdict, unless it hits the limit on pivots. -/
theorem ensures_insert_verdict (hrest : s.AtRest config) (hs : s.Sound True True)
    (hc : c.OverLayout) (hw : 0 ≤ w.value) :
    Ensures (insert c w) s
      (fun h s' => s.state.verdict c w = .ok (h, s'.state.tableau.nextId))
      fun cause _ => (∃ n, cause = .iterationLimit n) ∨ s.state.verdict c w = .error cause := by
  have hstate := hs.state
  have hnew : ∀ k, ¬ s.state.tableau.Known k → CostIgnores s.state.charge k := fun _ =>
    hstate.costIgnores_of_not_known
  have hreserve : Ensures (insert c w) s
      (fun h s' => c.reserve w s.state.Equations s.state.tableau.nextId =
        .ok (h, s'.state.tableau.nextId))
      fun cause _ =>
        SolverError.Tells (c.reserve w s.state.Equations s.state.tableau.nextId) cause := by
    have hadded : ∀ t, t = s.state.tableau ∨ t = s.state.tableau.begin →
        Ensures (Tableau.addConstraint c w s.isBatching) t
          (fun h t' => c.reserve w s.state.Equations s.state.tableau.nextId = .ok (h, t'.nextId))
          fun cause _ =>
            SolverError.Tells (c.reserve w s.state.Equations s.state.tableau.nextId) cause := by
      intro t ht
      have hid : t.nextId = s.state.tableau.nextId := by rcases ht with rfl | rfl <;> rfl
      rw [← hid]
      exact Tableau.ensures_addConstraint_reserve (hstate.tableau.of_noted ht)
        (fun k hk => hnew k fun hknown => hk fun hinternal => hid ▸ hknown hinternal)
        (hstate.charge_nonneg trivial) hc hw s.isBatching
    refine ensures_insert_of ((ensures_guarded_of (fun _ => Tableau.keeps_addConstraint c w _)
      hrest hadded).imp ?_ ?_)
    · rintro h s' ⟨t, hreserve, rfl⟩
      exact hreserve
    · exact fun cause s' ⟨⟨_, htells⟩, _⟩ => htells
  refine ((ensures_insert_satisfiable hrest hs hc hw).and hreserve).imp ?_ ?_
  · exact fun _ _ ⟨hv, hreserve⟩ => State.verdict_of_exists hreserve hv
  · rintro cause _ ⟨hwhy, hlimit | hcause | ⟨hindex, _, hreserve⟩⟩
    · exact .inl hlimit
    · rw [State.verdict, hcause]
      exact .inr rfl
    · rcases hwhy with hlimit | ⟨i, rfl⟩ | ⟨rfl, hnot⟩
      · exact .inl hlimit
      · exact absurd rfl (hindex i)
      · exact .inr (State.verdict_of_not_exists hreserve hnot)

end Solver

end Cassowary
