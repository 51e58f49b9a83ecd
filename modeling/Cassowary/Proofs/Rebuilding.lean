import Cassowary.Proofs.Demand

/-!
# Moving a target, and building again

To move the target of an edit variable takes no solution of the required constraints away, and costs
have a bound, so nothing but the limit on pivots stands in the way. Afterwards the solver is as good
as a new one into which everything that is held has been inserted in its order, with the new target
from the start: the insertions are all taken, and the values of both are optimal. How the targets
came about does not matter.

The new solver may give out other symbols, but it does not need more of them than the old one had.

## Main definitions

* `State.heldWith` — what is held, with another constraint in the place of one

## Main results

* `Solver.Working.step_suggest` — a target moves, unless the limit on pivots is hit
* `Solver.Working.step_insert_of_feasible`, `Solver.Working.run_insertAll_of_feasible` — constraints
  that can be met are all inserted
* `Solver.suggest_rebuilt` — a target that has moved, next to a new solver
-/

namespace Cassowary

open Attempt

namespace State

variable {s : State Rat} {x : Variable} {e : Edit Rat} {h : Handle} {r : Record Rat}
  {c : Constraint Rat} {w : Strength Rat} {v : Assignment Rat} {exact quiet : Prop}

/-! ## What is held -/

/-- What is held, in its order, with another constraint in the place of one. -/
def heldWith (s : State Rat) (h : Handle) (c : Constraint Rat) :
    List (Constraint Rat × Strength Rat) :=
  s.constraints.entries.map fun e => (if e.1 = h then c else s.current e.1 e.2, e.2.strength)

theorem Tidy.held_retarget (hs : s.Tidy) (he : s.edits.get? x = some e) (target : Rat) :
    (s.retarget x target).held = s.heldWith e.handle (x.heldAt target) := by
  refine List.map_congr_left fun entry _ => ?_
  rw [hs.current_retarget he]

theorem Tidy.held_register (hs : s.Tidy) (hnew : s.constraints.get? h = none) :
    (s.register h r).held = s.held ++ [(r.constraint, r.strength)] := by
  have hcurrent : s.current h r = r.constraint :=
    current_of_forall_ne fun x e he => hs.edit_ne hnew x e he
  have hentries : (s.register h r).constraints.entries = s.constraints.entries ++ [(h, r)] :=
    Table.entries_insert_of_notMem (Table.get?_eq_none_iff.mp hnew)
  rw [held, hentries, List.map_append]
  exact congrArg (fun c => s.held ++ [(c, r.strength)]) hcurrent

theorem Tidy.shapes_held (hs : s.Tidy) : s.held.map (fun e => e.1.shape e.2) = s.shapes := by
  rw [held, List.map_map]
  exact List.map_congr_left fun e he => hs.shape_current (Table.get?_eq_some_iff.mpr he)

theorem Sound.lawful_of_mem_held (hs : s.Sound True quiet) {e : Constraint Rat × Strength Rat}
    (he : e ∈ s.held) : e.1.OverLayout ∧ 0 ≤ e.2.value := by
  obtain ⟨entry, hentry, rfl⟩ := List.mem_map.mp he
  have hr := Table.get?_eq_some_iff.mpr hentry
  exact ⟨hs.tidy.overLayout_current hr, hs.priced trivial _ _ hr⟩

/-- A target binds no values, since what holds a variable to it may be violated. -/
theorem Tidy.feasible_retarget (hs : s.Tidy) (he : s.edits.get? x = some e) (target : Rat) :
    (s.retarget x target).Feasible v ↔ s.Feasible v := by
  rw [feasible_iff_get?, feasible_iff_get?]
  refine forall_congr' fun h => forall_congr' fun r => imp_congr_right fun hr =>
    imp_congr_right fun hrequired => ?_
  have hne : h ≠ e.handle := by
    rintro rfl
    obtain ⟨r', hr', -, hsoft⟩ := hs.edit x e he
    cases hr'.symm.trans hr
    exact Bool.false_ne_true (hsoft.symm.trans hrequired)
  rw [hs.current_retarget he, if_neg hne]

end State

namespace Solver

open Operation (insertAll)

variable {s : Solver Rat} {config config' : Config Rat} {x : Variable} {e : Edit Rat}
  {c : Constraint Rat} {w : Strength Rat} {cs : List (Constraint Rat × Strength Rat)}
  {v : Assignment Rat}

/-! ## Moving a target -/

/-- Nothing but the limit on pivots keeps a target from being moved. -/
theorem Working.ensures_suggest_limited (hs : s.Working config) (he : s.state.edits.get? x = some e)
    (target : Rat) :
    Ensures (suggest x target) s
      (fun _ s' => ∃ t, s' = { s with state := { s.state.retarget x target with tableau := t } })
      fun cause _ => ∃ n, cause = .iterationLimit n := by
  have hstate := hs.sound.state
  obtain ⟨minus, hmoves⟩ := hstate.tidy.moves he target
  refine ensures_suggest_of (fun hnone => absurd (hnone.symm.trans he) nofun) fun e' he' => ?_
  cases he'.symm.trans he
  have hkeeps : ∀ t₀, Keeps (Tableau.suggest e.handle (target - e.target))
      (Tableau.RecoversTo · t₀) := fun _ => Tableau.keeps_suggest e.handle _
  refine ((ensures_guarded_nextId hkeeps hs.rest
    (Tableau.spendsNothing_suggest e.handle (target - e.target))).and
    (ensures_guarded_of hkeeps hs.rest fun t ht => Tableau.ensures_suggest
      (hstate.tableau.of_noted ht) hstate.bounded hmoves)).imp ?_ ?_
  · rintro _ s' ⟨-, t, -, rfl⟩
    exact ⟨t.commit, rfl⟩
  · rintro cause s' ⟨⟨hindex, -⟩, ⟨_, hcertified⟩, -⟩
    refine (hcertified.limited (hstate.tidy.bounded (hstate.priced trivial)) ?_).resolve_right ?_
    · rintro rfl
      -- What has been found meets the required constraints with the new target as well
      refine (hstate.tidy.retarget x target).not_exists_feasible (hcertified trivial trivial)
        ⟨s.state.tableau.basicSolution, ?_⟩
      exact (hstate.tidy.feasible_retarget he target).mpr
        (hstate.feasible_basicSolution trivial trivial)
    · rintro ⟨i, rfl⟩
      exact hindex i rfl

/-- A target is moved, unless the limit on pivots is hit. -/
theorem Working.step_suggest (hs : s.Working config) (he : s.state.edits.get? x = some e)
    (target : Rat) :
    ((s.step (.suggest x target)).1 = .ok .done ∧ (s.step (.suggest x target)).2.Working config ∧
      (s.step (.suggest x target)).2.batch = s.batch ∧
      ∃ t, (s.step (.suggest x target)).2.state =
        { s.state.retarget x target with tableau := t }) ∨
    ∃ n, (s.step (.suggest x target)).1 = .error (.iterationLimit n) := by
  have hperform : Ensures (perform (.suggest x target)) s
      (fun answer s' => answer = .done ∧ (s'.poisoned = s.poisoned ∧ s'.Sound True True) ∧ ∃ t,
        s' = { s with state := { s.state.retarget x target with tableau := t } })
      fun cause _ => ∃ n, cause = .iterationLimit n :=
    ensures_bind _ |>.mpr (((ensures_suggest_sound hs.rest hs.sound x target).and
      (hs.ensures_suggest_limited he target)).imp (fun _ _ h => ⟨rfl, h⟩) fun _ _ h => h.2)
  have hrest := (keeps_perform (.suggest x target)).outcome hs.rest
  rcases hperform.outcome with ⟨_, hanswer, rfl, ⟨hpoisoned, hsound⟩, t, ht⟩ | ⟨_, hcause, n, rfl⟩
  · refine .inl ⟨hanswer, ⟨hrest, hsound, hpoisoned.trans hs.poisoned⟩, ?_, t, ?_⟩
    · rw [show (s.step (.suggest x target)).2 = _ from ht]
    · rw [show (s.step (.suggest x target)).2 = _ from ht]
  · exact .inr ⟨n, hcause⟩

/-! ## Building again -/

/-- A constraint that can be met with those that are held is inserted, if there are symbols enough,
unless the limit on pivots is hit. -/
theorem Working.step_insert_of_feasible (hs : s.Working config) (hc : c.OverLayout)
    (hw : 0 ≤ w.value)
    (hroom : s.state.tableau.nextId + Shape.demand s.state.shapes (c.shape w) ≤ Key.maxIndex + 1)
    (hv : ∀ e ∈ s.state.held ++ [(c, w)], e.2.isRequired = true → e.1.Holds v) :
    (∃ h, (s.step (.insert c w)).1 = .ok (.inserted h) ∧ (s.step (.insert c w)).2.Working config ∧
      (s.step (.insert c w)).2.batch = s.batch ∧
      (s.step (.insert c w)).2.state.held = s.state.held ++ [(c, w)] ∧
      (s.step (.insert c w)).2.state.shapes = s.state.shapes ++ [c.shape w] ∧
      (s.step (.insert c w)).2.state.tableau.nextId =
        s.state.tableau.nextId + Shape.demand s.state.shapes (c.shape w)) ∨
    ∃ n, (s.step (.insert c w)).1 = .error (.iterationLimit n) := by
  have htidy := hs.sound.state.tidy
  obtain ⟨h', hreserve⟩ : ∃ h, c.reserve w s.state.Equations s.state.tableau.nextId =
      .ok (h, s.state.tableau.nextId + Shape.demand s.state.shapes (c.shape w)) :=
    (htidy.reserve_cases hc w s.state.tableau.nextId).elim And.right fun h => absurd h.1 (by omega)
  have hverdict := State.verdict_of_exists hreserve ⟨v, fun e he => hv e (by simp [he]),
    fun hrequired => hv (c, w) (by simp) hrequired⟩
  rcases hs.step_insert_cases hc hw with
    ⟨h, hanswer, hworking, hbatch, hverdict', hnew, t, ht⟩ | ⟨cause, hcause, hwhy, -⟩
  · have hbooks : ({ s.state with tableau := t } : State Rat).Tidy := htidy.of_eq rfl rfl
    refine .inl ⟨h, hanswer, hworking, hbatch, ?_, ?_, ?_⟩
    · rw [ht]
      exact hbooks.held_register hnew
    · rw [ht]
      exact State.shapes_register (s := { s.state with tableau := t }) hnew
    · injection hverdict'.symm.trans hverdict with heq
      exact congrArg Prod.snd heq
  · rcases hwhy with ⟨n, rfl⟩ | hwhy
    · exact .inr ⟨n, hcause⟩
    · cases hwhy.symm.trans hverdict

/-- Constraints that can be met with those that are held are all inserted, one after the other, if
there are symbols enough, unless the limit on pivots is hit. -/
theorem Working.run_insertAll_of_feasible (hs : s.Working config)
    (hcs : ∀ e ∈ cs, e.1.OverLayout ∧ 0 ≤ e.2.value)
    (hroom : s.state.tableau.nextId +
      Shape.demands s.state.shapes (cs.map fun e => e.1.shape e.2) ≤ Key.maxIndex + 1)
    (hv : ∀ e ∈ s.state.held ++ cs, e.2.isRequired = true → e.1.Holds v) :
    (∃ before n after, s.answers (insertAll cs) = before ++ .error (.iterationLimit n) :: after ∧
      ∀ a ∈ before, ∃ h, a = .ok (.inserted h)) ∨
    (∀ a ∈ s.answers (insertAll cs), ∃ h, a = .ok (.inserted h)) ∧
      (s.run (insertAll cs)).Working config ∧ (s.run (insertAll cs)).batch = s.batch ∧
      (s.run (insertAll cs)).state.held = s.state.held ++ cs := by
  induction cs generalizing s with
  | nil => exact .inr ⟨fun _ hmem => (List.not_mem_nil hmem).elim, hs, rfl, (List.append_nil _).symm⟩
  | cons e cs ih =>
    obtain ⟨c, w⟩ := e
    obtain ⟨hc, hw⟩ := hcs (c, w) List.mem_cons_self
    rw [List.map_cons, Shape.demands] at hroom
    dsimp only at hc hw hroom
    have hanswers : s.answers (insertAll ((c, w) :: cs)) =
        (s.step (.insert c w)).1 :: (s.step (.insert c w)).2.answers (insertAll cs) := rfl
    have hrun : s.run (insertAll ((c, w) :: cs)) = (s.step (.insert c w)).2.run (insertAll cs) := rfl
    rw [List.append_cons] at hv
    have hfirst := hs.step_insert_of_feasible hc hw (by omega) fun e he =>
      hv e (List.mem_append_left _ he)
    rcases hfirst with ⟨h, hanswer, hworking, hbatch, hheld, hshapes, hid⟩ | ⟨n, hcause⟩
    · rw [hanswers, hrun, hanswer]
      have hrest := ih hworking (fun e he => hcs e (List.mem_cons_of_mem _ he))
        (by rw [hid, hshapes, add_assoc]; exact hroom) (hheld ▸ hv)
      rcases hrest with ⟨before, n, after, hsplit, hbefore⟩ | ⟨hall, hend, hsame, hheld'⟩
      · exact .inl ⟨.ok (.inserted h) :: before, n, after, by rw [hsplit]; rfl,
          List.forall_mem_cons.mpr ⟨⟨h, rfl⟩, hbefore⟩⟩
      · refine .inr ⟨List.forall_mem_cons.mpr ⟨⟨h, rfl⟩, hall⟩, hend, hsame.trans hbatch, ?_⟩
        rw [hheld', hheld, ← List.append_cons]
    · exact .inl ⟨[], n, _, by rw [hanswers, hcause]; rfl, fun _ hmem =>
        (List.not_mem_nil hmem).elim⟩

/-- In exact arithmetic, after any run without removals that leaves the solver with values and no
batch open: the target of an edit variable is moved, unless the limit on pivots is hit. If it is
moved, then a new solver takes all constraints that are held, in their order and with the new target
in the place of the old one, unless it hits the limit on pivots. And then the values of the one
solver and of the other meet every required constraint, and cost the same, which is the least. -/
theorem suggest_rebuilt (hepsilon : config.epsilon = 0) (hepsilon' : config'.epsilon = 0)
    {os : List (Operation Rat)} (hos : ∀ o ∈ os, o.Lawful True ∧ ∀ h, o ≠ .remove h)
    (hrun : (ofConfig config).run os = s) (hpoisoned : s.poisoned = false) (hbatch : s.batch = none)
    (he : s.state.edits.get? x = some e) (target : Rat) :
    ((s.step (.suggest x target)).1 = .ok .done ∨
      ∃ n, (s.step (.suggest x target)).1 = .error (.iterationLimit n)) ∧
    ((s.step (.suggest x target)).1 = .ok .done →
      let cs := s.state.heldWith e.handle (x.heldAt target)
      let moved := (s.step (.suggest x target)).2
      let built := (ofConfig config').run (insertAll cs)
      (∃ before n after, (ofConfig config').answers (insertAll cs) =
          before ++ .error (.iterationLimit n) :: after ∧
        ∀ a ∈ before, ∃ h, a = .ok (.inserted h)) ∨
      (∀ a ∈ (ofConfig config').answers (insertAll cs), ∃ h, a = .ok (.inserted h)) ∧
        moved.state.held = cs ∧ built.state.held = cs ∧
        moved.state.Optimal moved.assignment ∧ moved.state.Optimal built.assignment ∧
        moved.state.cost moved.assignment = moved.state.cost built.assignment) := by
  subst hrun
  obtain ⟨hworking, hcovered⟩ := covered_run hepsilon hos hpoisoned
  generalize (ofConfig config).run os = s at *
  rcases hworking.step_suggest he target with
    ⟨hanswer, hmoved, hbatch', t, ht⟩ | ⟨n, hcause⟩
  · refine ⟨.inl hanswer, fun _ => ?_⟩
    intro cs moved built
    have htidy := hworking.sound.state.tidy
    have hheld : moved.state.held = cs := by
      rw [show moved.state = _ from ht]
      exact htidy.held_retarget he target
    have hoptimal := hmoved.sound.optimal trivial trivial hmoved.poisoned (hbatch'.trans hbatch)
    have hshapes : cs.map (fun e => e.1.shape e.2) = s.state.shapes := by
      rw [← hheld, hmoved.sound.state.tidy.shapes_held, show moved.state = _ from ht]
      rfl
    have hcs : ∀ e ∈ cs, e.1.OverLayout ∧ 0 ≤ e.2.value := fun e he =>
      hmoved.sound.state.lawful_of_mem_held (hheld ▸ he)
    have hroom : (ofConfig config').state.tableau.nextId +
        Shape.demands (ofConfig config').state.shapes (cs.map fun e => e.1.shape e.2) ≤
          Key.maxIndex + 1 := by
      rw [hshapes]
      exact (Nat.zero_add _).trans_le hcovered.state.room
    have hbuilt := (working_ofConfig hepsilon').run_insertAll_of_feasible hcs hroom
      fun e he hrequired => hoptimal.1 e (hheld ▸ he) hrequired
    refine hbuilt.imp id fun ⟨hall, hend, hclosed, hbuilt⟩ => ?_
    have hsame : built.state.held = moved.state.held := hbuilt.trans hheld.symm
    have hoptimal' := hend.sound.optimal trivial trivial hend.poisoned hclosed
    rw [State.optimal_eq_of_held hsame] at hoptimal'
    exact ⟨hall, hheld, hbuilt, hoptimal, hoptimal',
      le_antisymm (hoptimal.2 _ hoptimal'.1) (hoptimal'.2 _ hoptimal.1)⟩
  · refine ⟨.inr ⟨n, hcause⟩, fun hanswer => ?_⟩
    cases hcause.symm.trans hanswer

/-- An edit variable that is taken beyond a bound, while another one comes and goes. -/
def edited : List (Operation Rat) :=
  [.insert (.ofFormulas (.var (.external 1)) .equal (.add (.var (.external 0)) (.number 1)))
      .required,
    .startEdit (.external 1) .weak, .startEdit (.external 0) .strong, .suggest (.external 0) 4,
    .insert (.ofFormulas (.var (.external 1)) .lessOrEqual (.number 11)) .required,
    .suggest (.external 0) 12, .stopEdit (.external 1),
    .insert ((Variable.external 1).heldAt 9) .weak]

/-- The target comes back, and the bound does not matter any more. A new solver holds the edit
variable under other symbols, at the same cost. -/
theorem suggest_rebuilt_edited :
    ((ofConfig ⟨0, true, 100⟩).run edited).read (.external 0) = .value 10 ∧
    (((ofConfig ⟨0, true, 100⟩).run edited).step (.suggest (.external 0) 7)).1 = .ok .done ∧
    ∃ e, ((ofConfig ⟨0, true, 100⟩).run edited).state.edits.get? (.external 0) = some e ∧
      let cs := ((ofConfig ⟨0, true, 100⟩).run edited).state.heldWith e.handle
        ((Variable.external 0).heldAt 7)
      let moved := (((ofConfig ⟨0, true, 100⟩).run edited).step (.suggest (.external 0) 7)).2
      let built := (ofConfig ⟨0, false, 50⟩).run (insertAll cs)
      built.holds e.handle = false ∧ built.state.held = cs ∧
        moved.state.Optimal moved.assignment ∧ moved.state.Optimal built.assignment := by
  have hlawful : ∀ o ∈ edited, o.Lawful True ∧ ∀ h, o ≠ .remove h := by
    intro o ho
    simp only [edited, List.mem_cons, List.not_mem_nil, or_false] at ho
    refine ⟨?_, fun h => by rcases ho with rfl | rfl | rfl | rfl | rfl | rfl | rfl | rfl <;> simp⟩
    rcases ho with rfl | rfl | rfl | rfl | rfl | rfl | rfl | rfl
    · exact ⟨Constraint.overLayout_reduce _ _ _, fun _ => Strength.required_nonneg⟩
    · exact fun _ => by decide +kernel
    · exact fun _ => by decide +kernel
    · exact trivial
    · exact ⟨Constraint.overLayout_reduce _ _ _, fun _ => Strength.required_nonneg⟩
    · exact trivial
    · exact trivial
    · exact ⟨Variable.overLayout_heldAt _ _, fun _ => by decide +kernel⟩
  have hanswer : (((ofConfig ⟨0, true, 100⟩).run edited).step (.suggest (.external 0) 7)).1 =
      .ok .done := by decide +kernel
  have hedit : (((ofConfig ⟨0, true, 100⟩).run edited).state.edits.get? (.external 0)).map
      (·.handle) = some ⟨.ofIndex .error false 3, some (.ofIndex .error false 4)⟩ := by
    decide +kernel
  obtain ⟨e, he, hhandle⟩ := Option.map_eq_some_iff.mp hedit
  have hunlimited : ((ofConfig ⟨0, false, 50⟩).answers (insertAll
      (((ofConfig ⟨0, true, 100⟩).run edited).state.heldWith e.handle
        ((Variable.external 0).heldAt 7)))).all (!limited ·) = true := by
    rw [hhandle]
    decide +kernel
  have hrebuilt := (@suggest_rebuilt _ ⟨0, true, 100⟩ ⟨0, false, 50⟩ _ e rfl rfl edited hlawful rfl
    (by decide +kernel) (by decide +kernel) he 7).2 hanswer
  refine ⟨by decide +kernel, hanswer, e, he, ?_⟩
  rcases hrebuilt with ⟨before, n, after, hsplit, -⟩ | ⟨-, -, hheld, hoptimal, hoptimal', -⟩
  · exact absurd (hsplit ▸ by simp) (notMem_of_all_not_limited hunlimited n)
  · refine ⟨?_, hheld, hoptimal, hoptimal'⟩
    rw [hhandle]
    decide +kernel

end Solver

end Cassowary
