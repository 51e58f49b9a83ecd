import Cassowary.Proofs.Atomicity
import Cassowary.Proofs.Meaning

/-!
# Solvers stay sound

The state of a solver is sound if its tableau represents what its books say, with feasible rows and
an optimal objective, unless that was put off. Every operation on a sound state leads to a sound
state, or fails; a failure is undone, or it leaves the solver poisoned. So a run from an empty
solver leads to a sound state, unless the solver is poisoned.

## Main definitions

* `State.Sound`, `Solver.Sound` — a tableau that represents what the books say
* `Operation.Lawful` — constraints over layout variables, and strengths that are not negative
* `Solver.Spares`, `Solver.Sparing` — removals that do not touch the dummies of other constraints

## Main results

* `Solver.ensures_insert_sound`, `Solver.ensures_remove_sound` — the two operations on constraints
* `Solver.sound_step`, `Solver.sound_run` — every operation, and every run
-/

namespace Cassowary

open Attempt

/-! ## States -/

namespace Tableau

variable {t t' : Tableau Rat} {S : Assignment Rat → Prop} {cost : Assignment Rat → Rat}
  {exact quiet : Prop}

/-- Without rows, everything is a solution, and nothing costs anything. -/
theorem sound_empty {epsilon : Rat} (hepsilon : exact → epsilon = 0) (limit : Nat) :
    (Tableau.empty epsilon limit).Sound exact quiet (fun _ => True) fun _ => 0 := by
  have hnone : ∀ k row, (Tableau.empty epsilon limit).rows.get? k ≠ some row := fun _ _ => nofun
  have hzero : ∀ k, (Row.ofConstant (0 : Rat)).coefficientFor k = 0 := fun _ =>
    Row.coefficientFor_of_not_contains rfl
  have hrepresents : (Tableau.empty epsilon limit).Represents (fun _ => True) fun _ => 0 :=
    ⟨separated_empty epsilon limit, fun hrow => absurd hrow (hnone _ _),
      fun hrow => targetRow_empty hrow ▸ Row.proper_ofConstant 0,
      fun _ => iff_of_true (fun _ he => absurd he List.not_mem_nil) trivial, 0,
      fun _ _ => add_zero 0⟩
  have hlayered : (Tableau.empty epsilon limit).Layered :=
    ⟨fun hrow => absurd hrow (hnone _ _),
      fun hrow _ => targetRow_empty hrow ▸ hzero _⟩
  exact ⟨⟨⟨hrepresents, hlayered, fun _ hk => absurd hk List.not_mem_nil⟩, hepsilon,
    fun _ _ _ hrow => absurd hrow (hnone _ _), fun _ _ _ _ hrow => absurd hrow (hnone _ _)⟩, rfl,
    fun _ _ k _ => (hzero k).ge⟩

/-- What is noted for undoing does not matter. -/
theorem Sound.of_noted (h : t.Sound exact quiet S cost) (ht : t' = t ∨ t' = t.begin) :
    t'.Sound exact quiet S cost := by
  rcases ht with rfl | rfl
  · exact h
  · exact ⟨h.prepared.of_eq rfl rfl (.inl rfl) le_rfl rfl rfl, h.queue, h.optimal⟩

theorem Sound.commit (h : t.Sound exact quiet S cost) : t.commit.Sound exact quiet S cost :=
  ⟨h.prepared.of_eq rfl rfl (.inl rfl) le_rfl rfl rfl, h.queue, h.optimal⟩

end Tableau

namespace State

variable {s : State Rat} {t : Tableau Rat} {h : Handle} {r : Record Rat} {k : Key}
  {c : Constraint Rat} {w : Strength Rat} {exact quiet : Prop}

/-- The books are tidy, and the tableau represents what they say. -/
structure Sound (exact quiet : Prop) (s : State Rat) : Prop where
  tidy : s.Tidy
  priced : exact → ∀ h r, s.constraints.get? h = some r → 0 ≤ r.strength.value
  tableau : s.tableau.Sound exact quiet s.Equations s.charge

namespace Sound

/-- The state without constraints. -/
theorem empty {epsilon : Rat} (hepsilon : exact → epsilon = 0) (limit : Nat) :
    Sound exact quiet ⟨.empty epsilon limit, ∅, ∅, ∅⟩ := by
  have hnone : ∀ h r, (∅ : Table Handle (Record Rat)).get? h ≠ some r := fun _ _ => nofun
  have hnoedit : ∀ x e, (∅ : Table Variable (Edit Rat)).get? x ≠ some e := fun _ _ => nofun
  refine ⟨⟨fun h r hr => absurd hr (hnone h r), fun h r hr => absurd hr (hnone h r),
    fun h r hr => absurd hr (hnone h r), fun h r _ _ _ hr => absurd hr (hnone h r),
    fun x e he => absurd he (hnoedit x e), fun x e _ _ he => absurd he (hnoedit x e)⟩,
    fun _ h r hr => absurd hr (hnone h r), ?_⟩
  refine (Tableau.sound_empty hepsilon limit).congr (fun v => ?_) ⟨0, fun v _ => ?_⟩
  · exact iff_of_true trivial (equations_iff.mpr fun h r hr => absurd hr (hnone h r))
  · exact add_zero 0

/-- The symbols of the constraints have been given out. -/
theorem known (hs : s.Sound exact quiet) (hr : s.constraints.get? h = some r) (hk : k ∈ h.markers) :
    s.tableau.Known k := by
  have hsplits := hs.tidy.splits hr
  rcases Handle.mem_markers.mp hk with rfl | hother
  · exact hs.tableau.prepared.represents.known_of_slope hsplits.split hsplits.marker one_ne_zero
  · exact hs.tableau.prepared.represents.known_of_slope hsplits.split (hsplits.other k hother)
      (by norm_num)

theorem charge_nonneg (hs : s.Sound exact quiet) (hexact : exact) (v : Assignment Rat)
    (hv : v.Nonnegative) : 0 ≤ s.charge v :=
  hs.tidy.charge_nonneg (hs.priced hexact) hv

theorem bounded (hs : s.Sound exact quiet) (hexact : exact) : Bounded s.Equations s.charge :=
  ⟨0, fun v _ hv => hs.charge_nonneg hexact v hv⟩

/-- Symbols that are given out for a new constraint are new to the books. -/
theorem get?_of_fresh (hs : s.Sound exact quiet) (hfresh : h.Fresh s.tableau.nextId) :
    s.constraints.get? h = none ∧
      ∀ h' r' k, s.constraints.get? h' = some r' → k ∈ h.markers → k ∉ h'.markers := by
  have hnot : ∀ h' r' k, s.constraints.get? h' = some r' → k ∈ h.markers → k ∉ h'.markers :=
    fun h' r' k hr' hk hk' => absurd (hs.known hr' hk' (hfresh.internal k hk))
      (not_lt.mpr (hfresh.le k hk))
  refine ⟨?_, hnot⟩
  cases hr : s.constraints.get? h with
  | none => rfl
  | some r => exact absurd List.mem_cons_self (hnot h r h.marker hr List.mem_cons_self)

/-- The books with a new constraint. -/
theorem tidy_register (hs : s.Sound exact quiet) (hfits : h.Fits c.relation w.isRequired)
    (hfresh : h.Fresh s.tableau.nextId) (hc : c.OverLayout) : (s.register h ⟨c, w⟩).Tidy :=
  hs.tidy.register (hs.get?_of_fresh hfresh).1 hfits hc hfresh.nodup (hs.get?_of_fresh hfresh).2

/-- Nothing depends on a variable that is in no row. -/
theorem ignores_of_rowless (hs : s.Sound exact quiet) (hk : k.Rowless) :
    Ignores s.Equations k ∧ CostIgnores s.charge k := by
  have hmem : ∀ h r, s.constraints.get? h = some r → k ∉ h.markers := fun h r hr =>
    (hs.tidy.fits h r hr).not_mem_of_rowless hk
  exact ⟨hs.tidy.equations_ignores hk.unrestricted hmem, charge_ignores hmem⟩

/-- Nothing costs anything that has not been given out. -/
theorem costIgnores_of_not_known (hs : s.Sound exact quiet) (hk : ¬ s.tableau.Known k) :
    CostIgnores s.charge k :=
  charge_ignores fun _ _ hr hmem => hk (hs.known hr hmem)

/-- The tableau of a sound state takes a constraint in, or finds a certificate against the books
with the constraint. A constraint that may be violated contradicts nothing. -/
theorem ensures_addConstraint (hs : s.Sound exact quiet) (ht : t = s.tableau ∨ t = s.tableau.begin)
    (hc : c.OverLayout) (hw : exact → 0 ≤ w.value) (defer : Bool) :
    Ensures (Tableau.addConstraint c w defer) t
      (fun h t' => (h.Fits c.relation w.isRequired ∧ h.Fresh s.tableau.nextId) ∧
        t'.Sound exact quiet (fun v => s.Equations v ∧ c.equation h v = 0)
          (fun v => s.charge v + h.price w v) ∧ (defer = false → t'.deferred = false))
      fun cause _ => (∃ i, cause = .indexSpaceExhausted i) ∨
        ∃ h : Handle, (h.Fits c.relation w.isRequired ∧ h.Fresh s.tableau.nextId) ∧
          Certified exact quiet (s.register h ⟨c, w⟩).Equations (s.register h ⟨c, w⟩).charge
            cause ∧ (cause = .unsatisfiable → exact → w.isRequired = true) := by
  have hsound := hs.tableau.of_noted ht
  have hid : t.nextId = s.tableau.nextId := by rcases ht with rfl | rfl <;> rfl
  have hnew : ∀ k, ¬ t.Known k → CostIgnores s.charge k := fun k hk =>
    hs.costIgnores_of_not_known fun hknown => hk fun hinternal => hid ▸ hknown hinternal
  refine (Tableau.ensures_addConstraint hsound (fun k hk => hs.ignores_of_rowless hk) hnew
    (fun hexact => hs.charge_nonneg hexact) hc hw defer).imp ?_ fun cause _ => Or.imp_right ?_
  · rintro h t' ⟨⟨hfits, hfresh⟩, ht'⟩
    exact ⟨⟨hfits, hid ▸ hfresh⟩, ht'⟩
  · -- The certificate is about the equation; the books with the constraint say the same
    rintro ⟨h, ⟨hfits, hfresh⟩, hcertified, hrequired⟩
    rw [hid] at hfresh
    have hgone := (hs.get?_of_fresh hfresh).1
    have hcharge : (s.register h ⟨c, w⟩).charge = fun v => s.charge v + h.price w v :=
      funext fun v => charge_register hgone
    have hequations : ∀ v, (s.register h ⟨c, w⟩).Equations v ↔
        s.Equations v ∧ c.equation h v = 0 := fun v => hs.tidy.equations_register hgone
    rw [← hcharge] at hcertified
    exact ⟨h, ⟨hfits, hfresh⟩, hcertified.congr fun v => (hequations v).symm, hrequired⟩

/-- The tableau of a sound state forgets a constraint, or finds a certificate against the books
without it. In exact arithmetic it finds no contradiction. -/
theorem ensures_removeConstraint (hs : s.Sound exact quiet)
    (ht : t = s.tableau ∨ t = s.tableau.begin) (hartificial : s.tableau.artificial = none)
    (hr : s.constraints.get? h = some r)
    (hquiet : exact → quiet → ∀ k row, s.tableau.rows.get? k = some row → k.dummy = true →
      row.coefficientFor h.marker = 0) (defer : Bool) :
    Ensures (Tableau.removeConstraint h r.strength defer) t
      (fun _ t' => t'.Sound exact quiet (s.unregister h).Equations (s.unregister h).charge ∧
        (defer = false → t'.deferred = false))
      fun cause _ =>
        Certified exact quiet (s.unregister h).Equations (s.unregister h).charge cause ∧
          (cause = .unsatisfiable → ¬ exact) := by
  have hrows : t.rows = s.tableau.rows := by rcases ht with rfl | rfl <;> rfl
  have hnone : t.artificial = none := by rcases ht with rfl | rfl <;> exact hartificial
  exact Tableau.ensures_removeConstraint (hs.tableau.of_noted ht) hnone (hs.tidy.splits hr)
    (charge_unregister hr) (fun hexact hq k row hrow => hquiet hexact hq k row (hrows ▸ hrow)) defer

/-- A tableau that has taken a constraint in, and the books with the constraint. -/
theorem register (hs : s.Sound exact quiet) (hfits : h.Fits c.relation w.isRequired)
    (hfresh : h.Fresh s.tableau.nextId) (hc : c.OverLayout) (hw : exact → 0 ≤ w.value)
    (ht : t.Sound exact quiet (fun v => s.Equations v ∧ c.equation h v = 0)
      (fun v => s.charge v + h.price w v)) :
    (({ s with tableau := t } : State Rat).register h ⟨c, w⟩).Sound exact quiet := by
  have hnew := (hs.get?_of_fresh hfresh).1
  have hbooks : (({ s with tableau := t } : State Rat).register h ⟨c, w⟩).constraints =
      (s.register h ⟨c, w⟩).constraints := rfl
  refine ⟨(hs.tidy_register hfits hfresh hc).of_eq hbooks rfl, fun hexact h' r' hr' => ?_,
    ht.congr (fun v => ?_) ⟨0, fun v _ => ?_⟩⟩
  · rcases get?_register_cases hr' with ⟨-, rfl⟩ | hr'
    · exact hw hexact
    · exact hs.priced hexact h' r' hr'
  · rw [equations_of_eq hbooks rfl, hs.tidy.equations_register hnew]
  · rw [add_zero, charge_of_eq hbooks, charge_register hnew]

/-- A tableau from which a constraint has gone, and the books without the constraint. -/
theorem unregister (hs : s.Sound exact quiet) (hr : s.constraints.get? h = some r)
    (ht : t.Sound exact quiet (s.unregister h).Equations (s.unregister h).charge) :
    (({ s with tableau := t } : State Rat).unregister h).Sound exact quiet := by
  have hr' : ({ s with tableau := t } : State Rat).constraints.get? h = some r := hr
  have hconstraints : (({ s with tableau := t } : State Rat).unregister h).constraints =
      (s.unregister h).constraints := by rw [unregister_eq hr, unregister_eq hr']
  have hedits : (({ s with tableau := t } : State Rat).unregister h).edits =
      (s.unregister h).edits := by rw [unregister_eq hr, unregister_eq hr']
  have htableau : (({ s with tableau := t } : State Rat).unregister h).tableau = t := by
    rw [unregister_eq hr']
  refine ⟨(hs.tidy.unregister hr).of_eq hconstraints hedits, fun hexact h' r' hkept => ?_, ?_⟩
  · rw [hconstraints] at hkept
    exact hs.priced hexact h' r' (get?_of_unregister hr hkept).2
  · rw [htableau]
    refine ht.congr (fun v => (equations_of_eq hconstraints hedits v).symm) ⟨0, fun v _ => ?_⟩
    rw [add_zero, charge_of_eq hconstraints]

end Sound

end State

namespace Solver

variable {s s' : Solver Rat} {config : Config Rat} {h : Handle} {r : Record Rat}
  {c : Constraint Rat} {w : Strength Rat} {x : Variable} {exact quiet : Prop}

/-! ## Solvers -/

/-- The state is sound, and so is the state that an open batch goes back to. Outside a batch nothing
is put off. -/
structure Sound (exact quiet : Prop) (s : Solver Rat) : Prop where
  state : s.state.Sound exact quiet
  settled : s.batch = none → s.state.tableau.deferred = false
  snapshot : ∀ b state, s.batch = some b → b.snapshot = some state →
    state.Sound exact quiet ∧ state.tableau.deferred = false

theorem Sound.of_failed (hs : s.Sound exact quiet) (hfailed : s.Failed s')
    (hpoisoned : s'.poisoned = false) : s'.Sound exact quiet := by
  rcases hfailed with htrue | ⟨n, rfl⟩
  · rw [htrue] at hpoisoned
    cases hpoisoned
  · exact ⟨hs.state, hs.settled, hs.snapshot⟩

/-- An operation may start from the tableau itself, or from one that notes its changes. -/
theorem ensures_guarded_of {β : Type} {operation : Attempt (Tableau Rat) β}
    {done : β → Tableau Rat → Prop} {failed : SolverError → Tableau Rat → Prop}
    (hkeeps : ∀ t₀, Keeps operation (Tableau.RecoversTo · t₀)) (hs : s.AtRest config)
    (hoperation : ∀ t, t = s.state.tableau ∨ t = s.state.tableau.begin →
      Ensures operation t done failed) :
    Ensures (guarded operation) s
      (fun b s' => ∃ t, done b t ∧ s' = { s with state := { s.state with tableau := t.commit } })
      fun cause s' => (∃ t, failed cause t) ∧ s.Failed s' :=
  ensures_guarded_opening hkeeps hs (hoperation _ s.opening_cases)

/-! ## Constraints -/

/-- An insertion registers a constraint and stays sound, or it fails for a reason that the solutions
with the constraint bear out. -/
theorem ensures_insert_sound (hrest : s.AtRest config) (hs : s.Sound exact quiet)
    (hc : c.OverLayout) (hw : exact → 0 ≤ w.value) :
    Ensures (insert c w) s
      (fun h s' => s'.poisoned = s.poisoned ∧ s'.Sound exact quiet ∧
        (s.state.constraints.get? h = none ∧ (s.state.register h ⟨c, w⟩).Tidy) ∧
        s'.state.constraints = (s.state.register h ⟨c, w⟩).constraints ∧
        s'.state.edits = s.state.edits)
      fun cause s' => s.Failed s' ∧ ((∃ i, cause = .indexSpaceExhausted i) ∨
        ∃ h, (s.state.constraints.get? h = none ∧ (s.state.register h ⟨c, w⟩).Tidy) ∧
          Certified exact quiet (s.state.register h ⟨c, w⟩).Equations
            (s.state.register h ⟨c, w⟩).charge cause) := by
  have hstate := hs.state
  have hnew : ∀ h : Handle, h.Fits c.relation w.isRequired → h.Fresh s.state.tableau.nextId →
      s.state.constraints.get? h = none ∧ (s.state.register h ⟨c, w⟩).Tidy := fun h hfits hfresh =>
    ⟨(hstate.get?_of_fresh hfresh).1, hstate.tidy_register hfits hfresh hc⟩
  refine ensures_insert_of ((ensures_guarded_of (fun _ => Tableau.keeps_addConstraint c w _) hrest
    fun t ht => hstate.ensures_addConstraint ht hc hw s.isBatching).imp ?_ ?_)
  · rintro h s' ⟨t, ⟨⟨hfits, hfresh⟩, ht, hdeferred⟩, rfl⟩
    refine ⟨rfl, ⟨hstate.register hfits hfresh hc hw ht.commit, fun hbatch => ?_, hs.snapshot⟩,
      hnew h hfits hfresh, rfl, rfl⟩
    exact hdeferred (by rw [isBatching, hbatch, Option.isSome_none])
  · rintro cause s' ⟨⟨t, hcause⟩, hfailed⟩
    refine ⟨hfailed, hcause.imp_right ?_⟩
    rintro ⟨h, ⟨hfits, hfresh⟩, hcertified, -⟩
    exact ⟨h, hnew h hfits hfresh, hcertified⟩

/-- A removal that is done leaves the other constraints, and one that fails leaves the solver as it
was or poisoned. -/
theorem ensures_remove_sound (hrest : s.AtRest config) (hs : s.Sound exact quiet) (h : Handle)
    (hquiet : exact → quiet → ∀ k row, s.state.tableau.rows.get? k = some row → k.dummy = true →
      row.coefficientFor h.marker = 0) :
    Ensures (remove h) s
      (fun gone s' => if gone then s'.poisoned = s.poisoned ∧ s'.Sound exact quiet ∧
          s'.state.constraints = (s.state.unregister h).constraints ∧
          s'.state.edits = (s.state.unregister h).edits ∧ s'.batch = s.batch
        else s.Failed s')
      fun _ _ => False := by
  have hstate := hs.state
  refine ensures_remove_of (fun _ => .inr ⟨s.failures, rfl⟩) fun r hr => ?_
  refine (ensures_guarded_of
    (fun _ => Tableau.keeps_removeConstraint h r.strength s.isBatching) hrest fun t ht =>
      hstate.ensures_removeConstraint ht hrest.tableau.artificial hr hquiet s.isBatching).imp ?_
        fun _ _ => And.right
  rintro _ _ ⟨t, ⟨ht, hdeferred⟩, rfl⟩
  have hr' : ({ s.state with tableau := t.commit } : State Rat).constraints.get? h = some r := hr
  have hgone := hstate.unregister hr ht.commit
  dsimp only
  rw [State.unregister_eq hr'] at hgone ⊢
  rw [State.unregister_eq hr]
  refine ⟨rfl, ⟨hgone, fun hbatch => ?_, hs.snapshot⟩, rfl, rfl, rfl⟩
  exact hdeferred (by rw [isBatching, hbatch, Option.isSome_none])

/-! ## Edit variables -/

/-- A variable becomes an edit variable by a constraint that is inserted for it. -/
theorem ensures_startEdit_sound (hrest : s.AtRest config) (hs : s.Sound exact quiet) (x : Variable)
    (hw : exact → 0 ≤ w.value) :
    Ensures (startEdit x w) s (fun _ s' => s'.poisoned = s.poisoned ∧ s'.Sound exact quiet)
      fun _ s' => s.Failed s' := by
  refine ensures_startEdit_of (fun _ => .inr ⟨s.failures, rfl⟩) (fun _ => .inr ⟨s.failures, rfl⟩)
    fun hedit hsoft =>
      (ensures_insert_sound hrest hs (x.overLayout_heldAt _) hw).imp ?_ fun _ _ => And.left
  rintro h s' ⟨hpoisoned, hs', ⟨hnew, -⟩, hconstraints, hedits⟩
  have hr : s'.state.constraints.get? h = some ⟨x.heldAt ((s.read x).getD 0), w⟩ := by
    rw [hconstraints, State.get?_register, if_pos rfl]
  have hx : s'.state.edits.get? x = none := by
    rw [hedits]
    exact Option.isNone_iff_eq_none.mp (Option.isSome_eq_false_iff.mp hedit)
  have hfree : ∀ x e, s'.state.edits.get? x = some e → e.handle ≠ h := fun x e he =>
    hs.state.tidy.edit_ne hnew x e (hedits ▸ he)
  have htidy := hs'.state.tidy.hold hr rfl hsoft hfree
  refine ⟨hpoisoned, ⟨⟨htidy, hs'.state.priced, ?_⟩, hs'.settled, hs'.snapshot⟩⟩
  exact hs'.state.tableau.congr (fun v => (htidy.equations_hold hr rfl hx hfree).symm)
    ⟨0, fun _ _ => add_zero _⟩

/-- An edit variable goes with the constraint that holds it. -/
theorem ensures_stopEdit_sound (hrest : s.AtRest config) (hs : s.Sound exact quiet) (x : Variable) :
    Ensures (stopEdit x) s (fun _ s' => s'.poisoned = s.poisoned ∧ s'.Sound exact quiet)
      fun _ s' => s.Failed s' := by
  refine ensures_stopEdit_of (fun _ => .inr ⟨s.failures, rfl⟩) fun e he => ?_
  obtain ⟨r, hr, -⟩ := hs.state.tidy.edit x e he
  -- The marker is an error variable, and rows of dummies have none
  have hquiet : exact → quiet → ∀ k row, s.state.tableau.rows.get? k = some row → k.dummy = true →
      row.coefficientFor e.handle.marker = 0 := by
    intro hexact hq k row hrow hk
    obtain ⟨minus, hmoves⟩ := hs.state.tidy.moves he 0
    by_contra hne
    have hdummy := (hs.state.tableau.prepared.idle hexact hq k row hrow hk).2 _ hne
    have hkind : e.handle.marker.kind = .dummy := of_decide_eq_true hdummy
    cases hkind.symm.trans hmoves.fits.1
  refine (ensures_remove_sound hrest hs e.handle hquiet).imp ?_ fun _ _ => False.elim
  intro gone s' hdone
  cases gone with
  | false => exact hdone
  | true =>
    obtain ⟨hpoisoned, hs', -, hedits, -⟩ := hdone
    have hnone : s'.state.edits.get? x = none := by
      cases he' : s'.state.edits.get? x with
      | none => rfl
      | some e' =>
        rw [hedits] at he'
        obtain ⟨hsame, hne⟩ := (State.get?_edits_unregister hr x e').mp he'
        cases hsame.symm.trans he
        exact absurd rfl hne
    rw [Table.erase_of_get?_eq_none hnone]
    exact ⟨hpoisoned, hs'.state, hs'.settled, hs'.snapshot⟩

/-- A target moves together with what the books say of it. -/
theorem ensures_suggest_sound (hrest : s.AtRest config) (hs : s.Sound exact quiet) (x : Variable)
    (target : Rat) :
    Ensures (suggest x target) s (fun _ s' => s'.poisoned = s.poisoned ∧ s'.Sound exact quiet)
      fun _ s' => s.Failed s' := by
  have hstate := hs.state
  refine ensures_suggest_of (fun _ => .inr ⟨s.failures, rfl⟩) fun e he => ?_
  obtain ⟨minus, hmoves⟩ := hstate.tidy.moves he target
  refine (ensures_guarded_of (fun _ => Tableau.keeps_suggest e.handle _) hrest fun t ht =>
    Tableau.ensures_suggest (hstate.tableau.of_noted ht) hstate.bounded hmoves).imp ?_
      fun _ _ => And.right
  rintro _ s' ⟨t, ⟨ht, hdeferred⟩, rfl⟩
  have htidy := hstate.tidy.retarget x target
  exact ⟨rfl, ⟨htidy.of_eq rfl rfl, hstate.priced, ht.commit⟩, fun _ => hdeferred, hs.snapshot⟩

/-! ## Batches -/

theorem ensures_openBatch_sound (hs : s.Sound exact quiet) :
    Ensures openBatch s (fun _ s' => s'.poisoned = s.poisoned ∧ s'.Sound exact quiet)
      fun _ s' => s.Failed s' := by
  refine ensures_openBatch_of (fun _ => .inr ⟨s.failures, rfl⟩) fun hnone b hb =>
    ⟨rfl, hs.state, nofun, ?_⟩
  rintro _ state ⟨⟩ hsnapshot
  rw [hb state hsnapshot]
  exact ⟨hs.state, hs.settled hnone⟩

/-- A batch that is closed leads to a sound state, or back to the one at its start. -/
theorem ensures_closeBatch_sound (hs : s.Sound exact quiet) :
    Ensures closeBatch s (fun _ s' => s'.poisoned = s.poisoned ∧ s'.Sound exact quiet)
      fun _ s' => s'.poisoned = false → s'.Sound exact quiet := by
  -- In a batch the rows stay feasible, so that solving can start from them
  have hsolve := Tableau.ensures_solve hs.state.tableau.prepared fun hexact =>
    .inl (hs.state.tableau.feasible hexact)
  refine ensures_closeBatch_of (fun _ _ => hs) fun b hb => hsolve.imp
    (fun _ t ht => ⟨rfl, ⟨hs.state.tidy.of_eq rfl rfl, hs.state.priced, ht.1⟩, fun _ => ht.2,
      fun _ _ => nofun⟩) fun _ _ _ => ⟨fun state hsnapshot _ => ?_, fun _ => nofun⟩
  obtain ⟨hstate, hsettled⟩ := hs.snapshot b state hb hsnapshot
  exact ⟨hstate, fun _ => hsettled, fun _ _ => nofun⟩

/-- A solver that is cleared is sound whatever it was. -/
theorem AtRest.sound_clear (hrest : s.AtRest config) (hepsilon : exact → config.epsilon = 0) :
    s.clear.Sound exact quiet := by
  have hzero : exact → s.state.tableau.epsilon = 0 := fun hexact =>
    hrest.tableau.epsilon.trans (hepsilon hexact)
  exact ⟨State.Sound.empty hzero _, fun _ => rfl, fun _ _ hopen => by cases hopen⟩

/-! ## Runs -/

end Solver

/-- An operation as layouts ask for it: its constraint mentions layout variables only, and its
strength is not negative. -/
def Operation.Lawful (exact : Prop) : Operation Rat → Prop
  | .insert c w => c.OverLayout ∧ (exact → 0 ≤ w.value)
  | .startEdit _ w => exact → 0 ≤ w.value
  | _ => True

theorem Operation.Lawful.imp {exact exact' : Prop} {o : Operation Rat} (ho : o.Lawful exact)
    (h : exact' → exact) : o.Lawful exact' := by
  cases o with
  | insert c w => exact ⟨ho.1, fun hexact => ho.2 (h hexact)⟩
  | startEdit x w => exact fun hexact => ho (h hexact)
  | _ => trivial

namespace Solver

variable {s : Solver Rat} {config : Config Rat} {exact quiet : Prop}

/-- If an operation is a removal, no row of a dummy mentions the marker that goes. -/
def Spares (s : Solver Rat) : Operation Rat → Prop
  | .remove h => ∀ k row, s.state.tableau.rows.get? k = some row → k.dummy = true →
      row.coefficientFor h.marker = 0
  | _ => True

/-- Every operation of a run spares the dummies. -/
def Sparing (s : Solver Rat) : List (Operation Rat) → Prop
  | [] => True
  | o :: os => s.Spares o ∧ Sparing (s.step o).2 os

/-- A property that does not depend on the state and the counts, and that a failure on the tableau
keeps. -/
structure Lasting (P : Solver Rat → Prop) : Prop where
  books : ∀ s s' : Solver Rat, P s → s'.config = s.config → s'.batch = s.batch →
    s'.poisoned = s.poisoned → P s'
  recovered : ∀ (s : Solver Rat) t, P s → P (s.recovered t)

namespace Lasting

variable {P : Solver Rat → Prop}

theorem guarded (hP : Lasting P) {β : Type} (operation : Attempt (Tableau Rat) β) :
    Keeps (guarded operation) P := by
  intro s hs
  unfold Ensures Solver.guarded
  dsimp only
  split
  · next heq =>
    split at heq <;> cases heq
    exact hP.books _ _ hs rfl rfl rfl
  · next heq =>
    split at heq <;> cases heq
    exact hP.recovered s _ hs

theorem insert (hP : Lasting P) (c : Constraint Rat) (w : Strength Rat) : Keeps (insert c w) P := by
  intro s hs
  exact ensures_insert_of
    ((hP.guarded _ s hs).imp (fun _ _ hs' => hP.books _ _ hs' rfl rfl rfl) fun _ _ => id)

theorem remove (hP : Lasting P) (h : Handle) : Keeps (remove h) P := by
  intro s hs
  exact ensures_remove_of (fun _ => hs) fun r _ => (hP.guarded _ s hs).imp
    (fun _ _ hs' => hP.books _ _ hs' rfl rfl rfl) fun _ _ => id

/-- A lasting property is kept by every operation on one constraint or edit variable. -/
theorem perform (hP : Lasting P) {o : Operation Rat} (ho : o.single = true) :
    Keeps (perform o) P := fun s hs =>
  ensures_perform_single ho hs
    (fun _ _ hs => hP.books _ _ hs rfl rfl rfl)
    (fun c w _ => hP.insert c w s hs) (fun h _ => hP.remove h s hs)
    fun h delta _ => hP.guarded (Tableau.suggest h delta) s hs

end Lasting

theorem lasting_poisoned : Lasting fun s => s.poisoned = true where
  books _ _ hs _ _ heq := heq.trans hs
  recovered s t hs := by
    unfold Solver.recovered
    dsimp only
    split
    · exact hs
    · rfl

/-- A poisoned solver stays poisoned until it is cleared. -/
theorem keeps_poisoned {o : Operation Rat} (ho : o ≠ .clear) :
    Keeps (perform o) fun s : Solver Rat => s.poisoned = true := by
  cases hsingle : o.single with
  | true => exact lasting_poisoned.perform hsingle
  | false =>
    intro s hs
    cases o with
    | openBatch => exact ensures_bind _ |>.mpr (ensures_openBatch_of (fun _ => hs) fun _ _ _ => hs)
    | closeBatch =>
      exact ensures_bind _ |>.mpr (ensures_closeBatch_of (fun _ => hs) fun _ _ =>
        ensures_self.imp (fun _ _ _ => hs) fun _ _ _ => ⟨fun _ _ => hs, fun _ => rfl⟩)
    | clear => exact absurd rfl ho
    | _ => cases hsingle

/-- A solver that undoes failures has values, and an open batch can be undone. -/
structure Undoes (s : Solver Rat) : Prop where
  rollback : s.config.rollbackOnFailure = true
  poisoned : s.poisoned = false
  snapshot : ∀ b, s.batch = some b → b.snapshot ≠ none

theorem lasting_undoes : Lasting Undoes where
  books _ _ hs hconfig hbatch hpoisoned :=
    ⟨hconfig ▸ hs.rollback, hpoisoned.trans hs.poisoned, hbatch ▸ hs.snapshot⟩
  recovered s t hs := by
    unfold Solver.recovered
    dsimp only
    rw [if_pos hs.rollback]
    exact ⟨hs.rollback, hs.poisoned, hs.snapshot⟩

/-- A solver that undoes failures is never poisoned. -/
theorem keeps_undoes (o : Operation Rat) : Keeps (perform o) Undoes := by
  cases hsingle : o.single with
  | true => exact lasting_undoes.perform hsingle
  | false =>
    intro s hs
    cases o with
    | openBatch =>
      simp only [perform, openBatch, ensures_bind, ensures_get]
      by_cases hbatch : s.isBatching = true
      · rw [if_pos hbatch]
        exact hs
      · rw [if_neg hbatch]
        refine ⟨hs.rollback, hs.poisoned, fun b hb => ?_⟩
        cases hb
        dsimp only
        rw [if_pos hs.rollback]
        exact Option.some_ne_none _
    | closeBatch =>
      refine ensures_bind _ |>.mpr (ensures_closeBatch_of (fun _ => hs) fun b hb =>
        ensures_self.imp (fun _ _ _ => ?_) fun _ _ _ => ⟨fun _ _ => ?_, fun hnone => ?_⟩)
      · exact ⟨hs.rollback, hs.poisoned, fun _ hopen => by cases hopen⟩
      · exact ⟨hs.rollback, hs.poisoned, fun _ hopen => by cases hopen⟩
      · exact absurd hnone (hs.snapshot b hb)
    | clear => exact ⟨hs.rollback, rfl, fun _ hopen => by cases hopen⟩
    | _ => cases hsingle

/-- A run of a solver that undoes failures does not poison it. -/
theorem poisoned_run (hrollback : config.rollbackOnFailure = true) (os : List (Operation Rat)) :
    ((ofConfig config).run os).poisoned = false := by
  have hstart : (ofConfig config).Undoes := ⟨hrollback, rfl, fun _ hopen => by cases hopen⟩
  have hend : ((ofConfig config).run os).Undoes := run_induction hstart fun o _ => keeps_undoes o
  exact hend.poisoned

/-- Every operation keeps a solver sound, unless it leaves the solver poisoned. -/
theorem sound_step (hepsilon : exact → config.epsilon = 0) (hrest : s.AtRest config)
    (hs : s.poisoned = false → s.Sound exact quiet) {o : Operation Rat} (ho : o.Lawful exact)
    (hquiet : exact → quiet → s.Spares o) (hpoisoned : (s.step o).2.poisoned = false) :
    (s.step o).2.Sound exact quiet := by
  by_cases hclear : o = .clear
  · rw [hclear]
    exact hrest.sound_clear hepsilon
  have hs := hs (Bool.eq_false_iff.mpr fun htrue =>
    Bool.eq_false_iff.mp hpoisoned ((keeps_poisoned hclear).outcome htrue))
  have hfailed : ∀ s', s.Failed s' → s'.poisoned = false → s'.Sound exact quiet := fun s' =>
    hs.of_failed
  have hensures : Ensures (perform o) s (fun _ s' => s'.poisoned = false → s'.Sound exact quiet)
      fun _ s' => s'.poisoned = false → s'.Sound exact quiet := by
    cases o with
    | insert c w =>
      refine ensures_map _ |>.mpr ((ensures_insert_sound hrest hs ho.1 ho.2).imp ?_ ?_)
      · exact fun _ _ h _ => h.2.1
      · exact fun _ s' h => hfailed s' h.1
    | remove h =>
      refine ensures_map _ |>.mpr
        ((ensures_remove_sound hrest hs h hquiet).imp ?_ fun _ _ => False.elim)
      intro gone s' h
      cases gone with
      | true => exact fun _ => h.2.1
      | false => exact hfailed s' h
    | startEdit x w =>
      exact ensures_bind _ |>.mpr ((ensures_startEdit_sound hrest hs x ho).imp (fun _ _ h _ => h.2)
        fun _ => hfailed)
    | stopEdit x =>
      exact ensures_bind _ |>.mpr ((ensures_stopEdit_sound hrest hs x).imp (fun _ _ h _ => h.2)
        fun _ => hfailed)
    | suggest x target =>
      exact ensures_bind _ |>.mpr
        ((ensures_suggest_sound hrest hs x target).imp (fun _ _ h _ => h.2) fun _ => hfailed)
    | openBatch =>
      exact ensures_bind _ |>.mpr ((ensures_openBatch_sound hs).imp (fun _ _ h _ => h.2)
        fun _ => hfailed)
    | closeBatch =>
      exact ensures_bind _ |>.mpr ((ensures_closeBatch_sound hs).imp (fun _ _ h _ => h.2)
        fun _ _ => id)
    | clear => exact absurd rfl hclear
  exact hensures.after hpoisoned

/-- A run of a sound solver leads to a sound one, or to one that is poisoned. -/
theorem sound_run_of_sound (hepsilon : exact → config.epsilon = 0) {os : List (Operation Rat)}
    (hos : ∀ o ∈ os, o.Lawful exact) (hrest : s.AtRest config)
    (hs : s.poisoned = false → s.Sound exact quiet) (hquiet : exact → quiet → s.Sparing os)
    (hpoisoned : (s.run os).poisoned = false) : (s.run os).Sound exact quiet := by
  induction os generalizing s with
  | nil => exact hs hpoisoned
  | cons o os ih =>
    have ho := hos o List.mem_cons_self
    -- A solver that an operation has poisoned may be cleared later
    exact ih (fun o ho => hos o (List.mem_cons_of_mem _ ho)) ((keeps_perform o).outcome hrest)
      (sound_step hepsilon hrest hs ho fun hexact hq => (hquiet hexact hq).1)
      (fun hexact hq => (hquiet hexact hq).2) hpoisoned

theorem sound_ofConfig (hepsilon : exact → config.epsilon = 0) :
    (ofConfig config).Sound exact quiet :=
  ⟨State.Sound.empty hepsilon _, fun _ => rfl, fun _ _ hopen => by cases hopen⟩

/-- A run from an empty solver leads to a sound one, or to one that is poisoned. -/
theorem sound_run (hepsilon : exact → config.epsilon = 0) {os : List (Operation Rat)}
    (hos : ∀ o ∈ os, o.Lawful exact) (hquiet : exact → quiet → (ofConfig config).Sparing os)
    (hpoisoned : ((ofConfig config).run os).poisoned = false) :
    ((ofConfig config).run os).Sound exact quiet :=
  sound_run_of_sound hepsilon hos (atRest_ofConfig config) (fun _ => sound_ofConfig hepsilon) hquiet
    hpoisoned

end Solver

end Cassowary
