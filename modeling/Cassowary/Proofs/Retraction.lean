import Cassowary.Proofs.Presence
import Cassowary.Proofs.Refusal
import Cassowary.Proofs.Batching

/-!
# Constraints that are taken back

A constraint that is removed right after it was inserted leaves the books as they were, to the order
of their entries. The tableau need not be the one before: an insertion and a removal pivot in
different ways. But it is optimal for the same constraints, so whatever the constraints settle is
told as before.

A removal may bring a required equality out of balance if its dummy stands in the row of another
one. The dummy of a constraint that has just come does not: nothing that enters the basis while it
comes is a dummy other than its own, so the rows of the other dummies stay what they were before it
was given out.

A solver that does not undo failures may be poisoned. Then its tableau need not be feasible, and a
constraint that it has taken in may not come out again.

## Main definitions

* `Solver.Reverts` — a solver that is back at what another one holds and tells

## Main results

* `State.unregister_register` — books after a constraint has come and gone
* `Tableau.Awaits.ensures_addConstraint_unseen` — a new dummy stands in no row of another one
* `Solver.run_insert_remove` — a constraint that comes and goes
* `Solver.run_insert_remove_contradicted` — a poisoned solver that keeps one
-/

namespace Cassowary

open Attempt

/-! ## Books -/

namespace Table

variable {κ β : Type} [DecidableEq κ] {t : Table κ β} {k k' : κ} {b : β}
  {f g : Option β → Option β}

/-- Changes for different keys can be made in either order, if one of them adds no entry. -/
theorem alter_comm (hne : k' ≠ k) (hg : g none = none) :
    (t.alter k' f).alter k g = (t.alter k g).alter k' f := by
  apply Table.ext
  obtain ⟨l, _⟩ := t
  simp only [alter]
  induction l with
  | nil => grind [alterEntries]
  | cons e rest ih => grind [alterEntries]

/-- An entry that is given and taken back, or changed and changed back, is as before. -/
theorem alter_alter_self (hf : ∀ o, f o ≠ none) (hg : g (f (t.get? k)) = t.get? k) :
    (t.alter k f).alter k g = t := by
  apply Table.ext
  obtain ⟨l, hl⟩ := t
  simp only [get?, alter] at hg ⊢
  induction l with
  | nil => grind [alterEntries]
  | cons e rest ih => grind [alterEntries]

theorem erase_insert (h : t.get? k = none) : (t.insert k b).erase k = t :=
  alter_alter_self (fun _ => Option.some_ne_none b) h.symm

end Table

namespace State

variable {references : Table Key Nat} {k : Key} {ks : List Key}

theorem unrefer_refer (hpositive : Positive references) (k : Key) :
    unrefer (refer references k) k = references := by
  apply Table.alter_alter_self (fun _ => Option.some_ne_none _)
  cases hget : references.get? k with
  | none => rfl
  | some n =>
    have hn := hpositive k n hget
    have hnot : ¬ n + 1 ≤ 1 := by omega
    rw [Option.getD_some, Option.bind_some, if_neg hnot, Nat.add_sub_cancel]

theorem unrefer_foldl_refer (hk : k ∉ ks) (references : Table Key Nat) :
    unrefer (ks.foldl refer references) k = ks.foldl refer (unrefer references k) := by
  induction ks generalizing references with
  | nil => rfl
  | cons k' ks ih =>
    rw [List.mem_cons, not_or] at hk
    obtain ⟨hne, hk⟩ := hk
    rw [List.foldl_cons, ih hk, List.foldl_cons]
    congr 1
    exact Table.alter_comm (Ne.symm hne) rfl

/-- Mentions that are counted and then no more leave the counts as they were. -/
theorem foldl_unrefer_foldl_refer (hpositive : Positive references) (hks : ks.Nodup) :
    ks.foldl unrefer (ks.foldl refer references) = references := by
  induction ks generalizing references with
  | nil => rfl
  | cons k ks ih =>
    obtain ⟨hk, hks⟩ := List.nodup_cons.mp hks
    rw [List.foldl_cons, List.foldl_cons, unrefer_foldl_refer hk, unrefer_refer hpositive,
      ih hpositive hks]

variable {α : Type} {s : State α} {h : Handle} {r : Record α}

/-- Books in which a constraint is entered and struck again are as before. -/
theorem unregister_register (hnew : s.constraints.get? h = none)
    (hpositive : Positive s.references) (hkeys : r.constraint.keys.Nodup)
    (hedits : ∀ x e, s.edits.get? x = some e → e.handle ≠ h) :
    (s.register h r).unregister h = s := by
  have hr : (s.register h r).constraints.get? h = some r := by rw [get?_register, if_pos rfl]
  have hfilter : s.edits.filter (fun _ e => e.handle ≠ h) = s.edits := by
    apply Table.ext
    apply List.filter_eq_self.mpr
    intro e he
    exact decide_eq_true (hedits e.1 e.2 (Table.get?_eq_some_iff.mpr he))
  rw [unregister_eq hr]
  simp only [register, Table.erase_insert hnew, foldl_unrefer_foldl_refer hpositive hkeys, hfilter]

end State

/-! ## A new dummy -/

namespace Tableau

variable {t t' : Tableau Rat} {S : Assignment Rat → Prop} {cost : Assignment Rat → Rat}
  {c : Constraint Rat} {handle : Handle}

/-- A dummy that is not known stands in no row of a dummy, as only dummies do. -/
theorem DummiesIdle.unseen (h : t.DummiesIdle) (hr : t.Represents S cost) {k : Key}
    (hk : ¬ t.Known k) : t.Idle fun d => d.dummy = true ∧ d ≠ k := by
  intro d row hrow hd
  obtain ⟨hconstant, hdummies⟩ := h d row hrow hd.1
  refine ⟨hconstant, fun d' hd' => ⟨hdummies d' hd', ?_⟩⟩
  rintro rfl
  exact hk fun hinternal =>
    (hr.over_row hrow).known (Row.contains_of_coefficientFor_ne_zero hd') hinternal

/-- Whichever way a constraint is installed, the other dummies do not come to depend on its
marker. -/
theorem Awaits.ensures_addConstraint_unseen (h : t.Awaits S cost) (hc : c.OverLayout)
    (w : Strength Rat) (defer : Bool) :
    Ensures (addConstraint c w defer) t
      (fun handle t' => t'.Idle fun d => d.dummy = true ∧ d ≠ handle.marker) fun _ _ => True := by
  have hcreated := ((h.ensures_createRow hc w).and (ensures_createRow_rows c w t)).and
    (Tableau.ensures_createRow h.sound hc False.elim)
  refine ensures_bind _ |>.mpr (hcreated.imp ?_ fun _ _ _ => trivial)
  rintro ⟨row, handle⟩ t₁ ⟨⟨h₁, hrows, -⟩, hfits, hfresh, -⟩
  have hdummy : ∀ d, d.dummy = true ∧ d ≠ handle.marker → d.dummy = true := fun _ => And.left
  have hunseen : t₁.Idle fun d => d.dummy = true ∧ d ≠ handle.marker := by
    refine Idle.of_eq (h.idle.unseen h.sound.prepared.represents fun hknown => ?_) hrows
    exact absurd (hknown (hfits.internal List.mem_cons_self))
      (not_lt.mpr (hfresh.le _ List.mem_cons_self))
  refine ensures_bind _ |>.mpr (((ensures_insertRow h₁.sound False.elim h₁.plain h₁.encodes
    h₁.marks).and (h₁.ensures_insertRow_idle hunseen hdummy fun hmarker => absurd rfl hmarker.2)).imp
      ?_ fun _ _ _ => trivial)
  rintro _ t₂ ⟨hinserted, hidle⟩
  refine ensures_bind _ |>.mpr (((enduring_idle hdummy).finish defer t₂
    ⟨hinserted.prepared.canonical, hidle⟩).imp (fun _ t₃ h₃ => ?_) fun _ _ _ => trivial)
  rw [ensures_pure]
  exact h₃.2

end Tableau

namespace Solver

variable {s s' : Solver Rat} {config : Config Rat} {os : List (Operation Rat)} {h : Handle}
  {r : Record Rat} {c : Constraint Rat} {w : Strength Rat} {exact quiet : Prop}

/-! ## One constraint -/

/-- What is sound in exact arithmetic is so with any tolerance. -/
theorem Sound.of_exact (hs : s.Sound True True) : s.Sound exact quiet := by
  have hstate : ∀ {state : State Rat}, state.Sound True True → state.Sound exact quiet := fun h =>
    { tidy := h.tidy
      priced := fun _ => h.priced trivial
      tableau :=
        { prepared :=
            { canonical := h.tableau.prepared.canonical
              epsilon := fun _ => h.tableau.prepared.epsilon trivial
              queued := fun _ => h.tableau.prepared.queued trivial
              idle := fun _ _ => h.tableau.prepared.idle trivial trivial }
          queue := h.tableau.queue
          optimal := fun _ => h.tableau.optimal trivial } }
  exact ⟨hstate hs.state, hs.settled, fun b state hb hsnapshot =>
    ⟨hstate (hs.snapshot b state hb hsnapshot).1, (hs.snapshot b state hb hsnapshot).2⟩⟩

/-- The marker of a constraint that has just come stands in no row of a dummy. -/
theorem Working.ensures_insert_unseen (hs : s.Working config) (hc : c.OverLayout) (w : Strength Rat) :
    Ensures (insert c w) s
      (fun h s' => s'.state.tableau.Idle fun d => d.dummy = true ∧ d ≠ h.marker)
      fun _ _ => True := by
  have hsound : s.Sound False False := hs.sound.of_exact
  have hprepared := hs.sound.state.tableau.prepared
  have hawaits : s.opening.Awaits s.state.Equations s.state.charge := by
    refine hsound.awaits ((hprepared.idle trivial trivial).of_eq (rows_opening s)) ?_
    exact hs.rest.epsilon_opening.trans (hs.rest.tableau.epsilon ▸ hprepared.epsilon trivial)
  refine ensures_insert_of ((ensures_guarded_opening
    (fun _ => Tableau.keeps_addConstraint c w s.isBatching) hs.rest
      (hawaits.ensures_addConstraint_unseen hc w s.isBatching)).imp ?_ fun _ _ _ => trivial)
  rintro h _ ⟨t, ht, rfl⟩
  exact ht

/-- A removal that is done strikes the constraint from the books. -/
theorem ensures_remove_state (h : Handle) (s : Solver Rat) :
    Ensures (remove h) s
      (fun gone s' => gone = true → ∃ t, s' = { s with
        state := State.unregister { s.state with tableau := t } h
        removals := s.removals + 1 })
      fun _ _ => False := by
  refine ensures_remove_of (fun _ => nofun) fun r _ => ?_
  refine (ensures_guarded_state _ s).imp ?_ fun _ _ _ => nofun
  rintro _ _ ⟨t, rfl⟩ -
  exact ⟨t, rfl⟩

/-- The solver is back at the books of another one, its values are as good, and where those of the
other one were settled, they are the same. -/
structure Reverts (s s' : Solver Rat) : Prop where
  constraints : s'.state.constraints = s.state.constraints
  edits : s'.state.edits = s.state.edits
  references : s'.state.references = s.state.references
  rows : s'.stats.rows = s.stats.rows
  /-- Both meet the required constraints at the least cost. -/
  optimal : s.state.Optimal s.assignment ∧ s'.state.Optimal s'.assignment
  cost : s'.state.cost s'.assignment = s.state.cost s.assignment
  read : (∀ v v', s.state.Optimal v → s.state.Optimal v' → ∀ k, s.state.Mentioned k → v k = v' k) →
    ∀ x, s'.read x = s.read x

/-- Solvers with the same books have the same rows in number, and values that are equally good. -/
theorem Working.reverts (hs : s.Working config) (hs' : s'.Working config) (hbatch : s.batch = none)
    (hbatch' : s'.batch = none) (hbalanced : s.state.Balanced) (hbalanced' : s'.state.Balanced)
    (hconstraints : s'.state.constraints = s.state.constraints)
    (hedits : s'.state.edits = s.state.edits)
    (hreferences : s'.state.references = s.state.references) : s.Reverts s' := by
  have hheld : s'.state.held = s.state.held := by
    unfold State.held State.current
    rw [hconstraints, hedits]
  have hoptimal := hs.sound.optimal trivial trivial hs.poisoned hbatch
  have hoptimal' := hs'.sound.optimal trivial trivial hs'.poisoned hbatch'
  have hoptimal'' : s.state.Optimal s'.assignment := by
    rwa [State.optimal_eq_of_held hheld] at hoptimal'
  have hmentioned : ∀ k, s'.state.Mentioned k ↔ s.state.Mentioned k := fun k => by
    rw [State.Mentioned, State.Mentioned, hconstraints]
  refine ⟨hconstraints, hedits, hreferences, ?_, ⟨hoptimal, hoptimal'⟩, ?_, fun hsettled x => ?_⟩
  · show s'.state.tableau.rows.size = s.state.tableau.rows.size
    rw [hs'.sound.state.size_rows, hs.sound.state.size_rows, hconstraints]
  · rw [State.cost_eq_of_held hheld]
    exact le_antisymm (hoptimal''.2 _ hoptimal.1) (hoptimal.2 _ hoptimal''.1)
  · rw [hs'.sound.read_eq hbalanced' hs'.poisoned, hs.sound.read_eq hbalanced hs.poisoned]
    by_cases hk : s.state.Mentioned x.key
    · have hfree := hs.sound.state.tidy.unrestricted_of_mentioned hk
      rw [if_pos hk, if_pos ((hmentioned _).mpr hk), ← assignment_eq hs'.poisoned hfree,
        ← assignment_eq hs.poisoned hfree, hsettled _ _ hoptimal'' hoptimal x.key hk]
    · rw [if_neg hk, if_neg fun hk' => hk ((hmentioned _).mp hk')]

/-! ## Insertion and removal -/

/-- A constraint whose insertion succeeds is held under the handle of the answer. -/
theorem Working.inserted {s₁ : Solver Rat} (hs : s.Working config) (hc : c.OverLayout)
    (hw : 0 ≤ w.value) (hinserted : s.step (.insert c w) = (.ok (.inserted h), s₁)) :
    s₁.state.constraints.get? h = some ⟨c, w⟩ ∧ s₁.poisoned = false := by
  obtain ⟨h', hanswer, hworking, -, -, -, t, ht⟩ | ⟨cause, hanswer, -⟩ := hs.step_insert_cases hc hw
  · rw [hinserted] at hanswer hworking ht
    cases hanswer
    refine ⟨?_, hworking.poisoned⟩
    rw [ht, State.get?_register, if_pos rfl]
  · rw [hinserted] at hanswer
    cases hanswer

/-- The dummies that are basic do not mention the marker of a constraint that has just come. -/
theorem Working.spared_of_inserted {s₁ : Solver Rat} (hs : s.Working config) (hc : c.OverLayout)
    (hinserted : s.step (.insert c w) = (.ok (.inserted h), s₁)) (hsound : s₁.Sound True True)
    {k : Key} {row : Row Rat} (hrow : s₁.state.tableau.rows.get? k = some row) (hk : k.dummy = true) :
    row.coefficientFor h.marker = 0 := by
  have hunseen : Ensures (perform (.insert c w)) s (fun answer s' => answer = .inserted h →
      s'.state.tableau.Idle fun d => d.dummy = true ∧ d ≠ h.marker) fun _ _ => True := by
    refine ensures_map _ |>.mpr ((hs.ensures_insert_unseen hc w).imp ?_ fun _ _ => id)
    rintro h' s' hidle ⟨⟩
    exact hidle
  have hidle := hunseen.of_ok (congrArg Prod.fst hinserted) rfl
  rw [show ((perform (.insert c w)).outcome s).2 = s₁ from congrArg Prod.snd hinserted] at hidle
  by_cases hmarker : k = h.marker
  · exact hmarker ▸ hsound.state.tableau.prepared.represents.coefficientFor_self hrow
  · by_contra hne
    exact ((hidle k row hrow ⟨hk, hmarker⟩).2 _ hne).2 rfl

/-- A constraint that has just come is removed, unless that takes too many pivots, and then the
books are as before. -/
theorem Working.step_remove_inserted {s₁ : Solver Rat} (hs : s.Working config)
    (hbalanced : s.state.Balanced) (hc : c.OverLayout) (hkeys : c.keys.Nodup) (hw : 0 ≤ w.value)
    (hinserted : s.step (.insert c w) = (.ok (.inserted h), s₁))
    (hremoved : (s₁.step (.remove h)).1 = .ok (.removed true)) :
    (s₁.step (.remove h)).2.Working config ∧ (s₁.step (.remove h)).2.batch = s.batch ∧
      (s₁.step (.remove h)).2.state.constraints = s.state.constraints ∧
      (s₁.step (.remove h)).2.state.edits = s.state.edits ∧
      (s₁.step (.remove h)).2.state.references = s.state.references := by
  obtain ⟨h', hanswer, hworking, hbatch, -, hnew, t, ht⟩ | ⟨cause, hanswer, -⟩ :=
    hs.step_insert_cases hc hw
  · rw [hinserted] at hanswer hworking hbatch ht
    cases hanswer
    dsimp only at hworking hbatch ht
    have hensures : Ensures (perform (.remove h)) s₁ (fun answer s' => answer = .removed true →
        s'.poisoned = s₁.poisoned ∧ s'.Sound True True ∧ ∃ t, s' = { s₁ with
          state := State.unregister { s₁.state with tableau := t } h
          removals := s₁.removals + 1 }) fun _ _ => False := by
      refine ensures_map _ |>.mpr (((ensures_remove_sound hworking.rest hworking.sound h
        fun _ _ k row => hs.spared_of_inserted hc hinserted hworking.sound).and
          (ensures_remove_state h s₁)).imp ?_ fun _ _ => And.left)
      rintro gone s' ⟨hdone, hstate⟩ ⟨⟩
      exact ⟨hdone.1, hdone.2.1, hstate rfl⟩
    obtain ⟨hpoisoned, hsound, t', ht'⟩ := hensures.of_ok hremoved rfl
    have hstate : (s₁.step (.remove h)).2.state = { s.state with tableau := t' } := by
      show ((perform (.remove h)).outcome s₁).2.state = _
      rw [ht', ht]
      exact State.unregister_register (s := { s.state with tableau := t' }) hnew hbalanced.positive
        hkeys (hs.sound.state.tidy.edit_ne hnew)
    refine ⟨⟨(keeps_perform (.remove h)).outcome hworking.rest, hsound,
      hpoisoned.trans hworking.poisoned⟩, ?_, ?_, ?_, ?_⟩
    · show ((perform (.remove h)).outcome s₁).2.batch = _
      rw [ht']
      exact hbatch
    all_goals rw [hstate]
  · rw [hinserted] at hanswer
    cases hanswer

/-- In exact arithmetic, after any run without removals that leaves the solver with values and no
batch open, of which operations may have failed: a constraint that is taken in, of any strength, is
removed right afterwards, unless that takes too many pivots. Then the constraints, the edit
variables, the counts of mentions and the number of rows are as before the insertion, the values
meet the required constraints at the same least cost, and if that settles the values of all
variables that are mentioned, every variable is told as before. -/
theorem run_insert_remove {s₁ : Solver Rat} (hepsilon : config.epsilon = 0)
    (hos : ∀ o ∈ os, o.Reduced ∧ o.Lawful True) (hkept : ∀ o ∈ os, ∀ h, o ≠ .remove h)
    (hrun : (ofConfig config).run os = s) (hpoisoned : s.poisoned = false) (hbatch : s.batch = none)
    (hreduced : (Operation.insert c w).Reduced) (hw : 0 ≤ w.value)
    (hinserted : s.step (.insert c w) = (.ok (.inserted h), s₁)) :
    (s₁.step (.remove h)).1 = .ok (.removed true) ∧ s.Reverts (s₁.step (.remove h)).2 ∨
      (s₁.step (.remove h)).1 = .ok (.removed false) ∧ ∃ n,
        ((guarded (Tableau.removeConstraint h w s₁.isBatching)).outcome s₁).1 =
          .error (.iterationLimit n) := by
  have hworking : s.Working config := by
    subst hrun
    exact ⟨Reachable.atRest ⟨os, rfl⟩, sound_run (fun _ => hepsilon) (fun o ho => (hos o ho).2)
      (fun _ _ => sparing_of_forall_ne hkept _) hpoisoned, hpoisoned⟩
  have hbalanced : s.state.Balanced := by
    subst hrun
    exact (run_balanced fun o ho => (hos o ho).1).1.state
  obtain ⟨hc, hkeys⟩ := hreduced.added (s := s) rfl
  have hstep : (s.step (.insert c w)).2 = s₁ := congrArg Prod.snd hinserted
  have hrun₁ : (ofConfig config).run (os ++ [.insert c w]) = s₁ := by
    rw [run_append, hrun]
    exact hstep
  have hrun₂ : (ofConfig config).run (os ++ [.insert c w, .remove h]) = (s₁.step (.remove h)).2 := by
    rw [run_append, hrun, ← hstep]
    rfl
  have hlawful : ∀ o ∈ os ++ [.insert c w], o.Lawful True := by
    intro o ho
    rcases List.mem_append.mp ho with ho | ho
    · exact (hos o ho).2
    · rw [List.mem_singleton.mp ho]
      exact ⟨hc, fun _ => hw⟩
  have hreduced₂ : ∀ o ∈ os ++ [.insert c w, .remove h], o.Reduced := by
    intro o ho
    rcases List.mem_append.mp ho with ho | ho
    · exact (hos o ho).1
    · simp only [List.mem_cons, List.not_mem_nil, or_false] at ho
      rcases ho with rfl | rfl
      · exact hreduced
      · trivial
  obtain ⟨hr, hpoisoned₁⟩ := hworking.inserted hc hw hinserted
  have hanswer := (refused_for_limits hepsilon hlawful hrun₁ hpoisoned₁).2.1 h _ hr
  refine hanswer.imp_left fun hremoved => ⟨hremoved, ?_⟩
  obtain ⟨hworking₂, hbatch₂, hconstraints, hedits, hreferences⟩ :=
    hworking.step_remove_inserted hbalanced hc hkeys hw hinserted hremoved
  have hbalanced₂ : (s₁.step (.remove h)).2.state.Balanced := by
    rw [← hrun₂]
    exact (run_balanced hreduced₂).1.state
  exact hworking.reverts hworking₂ hbatch (hbatch₂.trans hbatch) hbalanced hbalanced₂ hconstraints
    hedits hreferences

/-- A variable is edited and bounded, and another one is fixed, in a batch. To fix it elsewhere is
refused. -/
def anchored : List (Operation Rat) :=
  [.startEdit (.external 0) .strong,
    .insert (.ofFormulas (.var (.external 0)) .lessOrEqual (.number 10)) .required, .openBatch,
    .insert ((Variable.external 1).heldAt 2) .required,
    .insert (.ofFormulas (.var (.external 0)) .greaterOrEqual (.var (.external 1))) .medium,
    .closeBatch, .suggest (.external 0) 7, .insert ((Variable.external 1).heldAt 3) .required]

/-- A sum that the edited variable can meet away from its target only. -/
def summed : Constraint Rat :=
  .ofFormulas (.add (.var (.external 0)) (.var (.external 1))) .equal (.number 5)

/-- The sum takes the edited variable away from its target, and it comes back. -/
theorem run_insert_remove_anchored :
    ((ofConfig ⟨0, true, 100⟩).run anchored).failures = 1 ∧
    (((ofConfig ⟨0, true, 100⟩).run anchored).step (.insert summed .required)).2.read (.external 0) =
      .value 3 ∧
    ((ofConfig ⟨0, true, 100⟩).run anchored).Reverts
      ((((ofConfig ⟨0, true, 100⟩).run anchored).step (.insert summed .required)).2.step
          (.remove ⟨.ofIndex .dummy false 6, none⟩)).2 := by
  have hos : ∀ o ∈ anchored, o.Reduced ∧ o.Lawful True := by
    intro o ho
    simp only [anchored, List.mem_cons, List.not_mem_nil, or_false] at ho
    rcases ho with rfl | rfl | rfl | rfl | rfl | rfl | rfl | rfl
    · exact ⟨trivial, fun _ => by decide +kernel⟩
    · exact ⟨⟨_, _, _, rfl⟩, Constraint.overLayout_reduce _ _ _, fun _ => Strength.required_nonneg⟩
    · exact ⟨trivial, trivial⟩
    · exact ⟨⟨_, .equal, _, rfl⟩, Variable.overLayout_heldAt _ _, fun _ => Strength.required_nonneg⟩
    · exact ⟨⟨_, _, _, rfl⟩, Constraint.overLayout_reduce _ _ _, fun _ => by decide +kernel⟩
    · exact ⟨trivial, trivial⟩
    · exact ⟨trivial, trivial⟩
    · exact ⟨⟨_, .equal, _, rfl⟩, Variable.overLayout_heldAt _ _, fun _ => Strength.required_nonneg⟩
  have hinserted : (((ofConfig ⟨0, true, 100⟩).run anchored).step (.insert summed .required)).1 =
      .ok (.inserted ⟨.ofIndex .dummy false 6, none⟩) := by
    decide +kernel
  have hremoved : ((((ofConfig ⟨0, true, 100⟩).run anchored).step (.insert summed .required)).2.step
        (.remove ⟨.ofIndex .dummy false 6, none⟩)).1 ≠ .ok (.removed false) := by
    decide +kernel
  have hreverts := @run_insert_remove _ ⟨0, true, 100⟩ anchored _ _ .required _ rfl hos
    (by simp [anchored]) rfl (by decide +kernel) (by decide +kernel) ⟨_, _, _, rfl⟩
    Strength.required_nonneg (Prod.ext hinserted rfl)
  exact ⟨by decide +kernel, by decide +kernel,
    (hreverts.resolve_right fun hkept => hremoved hkept.1).2⟩

/-- A variable has a bound, and a contradicting one is refused without being undone. -/
def spoiled : List (Operation Rat) :=
  [.insert (.ofFormulas (.var (.external 0)) .greaterOrEqual (.number 1)) .required,
    .insert (.ofFormulas (.var (.external 0)) .lessOrEqual (.number (-2))) .required,
    .insert ((Variable.external 1).heldAt (-2)) .weak,
    .insert (.ofFormulas (.add (.var (.external 0)) (.term ⟨.external 1, 2⟩)) .lessOrEqual
      (.number 2)) .required]

/-- The second of two variables may not be negative. -/
def lifted : Constraint Rat := .ofFormulas (.var (.external 1)) .greaterOrEqual (.number 0)

/-- A poisoned solver takes a bound on another variable in, and does not let it go: the removal
finds that the rows left over from the failure contradict each other. -/
theorem run_insert_remove_contradicted :
    ((ofConfig ⟨0, false, 100⟩).run spoiled).poisoned = true ∧
    ((ofConfig ⟨0, false, 100⟩).run spoiled).isBatching = false ∧
    (((ofConfig ⟨0, false, 100⟩).run spoiled).step (.insert lifted .required)).1 =
      .ok (.inserted ⟨.ofIndex .slack false 5, none⟩) ∧
    ((((ofConfig ⟨0, false, 100⟩).run spoiled).step (.insert lifted .required)).2.step
      (.remove ⟨.ofIndex .slack false 5, none⟩)).1 = .ok (.removed false) ∧
    ((guarded (Tableau.removeConstraint ⟨.ofIndex .slack false 5, none⟩ .required false)).outcome
      (((ofConfig ⟨0, false, 100⟩).run spoiled).step (.insert lifted .required)).2).1 =
        .error .unsatisfiable := by
  refine ⟨?_, ?_, ?_, ?_, ?_⟩ <;> decide +kernel

end Solver

end Cassowary
