import Mathlib.Logic.Relation
import Cassowary.Proofs.Frame
import Cassowary.Proofs.Soundness

/-!
# Where a change may be seen

Two variables are connected if a chain of constraints leads from one to the other, each with a
variable that the next one has as well. What is held says nothing across: values for the variables
that are connected with a constraint and values for the others make a solution together. So no row
of the tableau mixes the two, and an operation on the constraint leaves the rows of the others
alone.

This needs an optimal objective. Otherwise solving starts wherever the objective can be improved.

## Main definitions

* `State.Shares`, `State.Connected` — chains of constraints
* `State.Near` — the variables that are connected, and the symbols of the constraints over them
* `Solver.touched` — the constraint that an operation is about
* `Solver.Agrees` — two solvers know the same of a key

## Main results

* `State.Tidy.composes` — what is held says nothing across
* `State.Sound.confined` — no row mixes near and far keys
* `Solver.ensures_insert_agrees`, `Solver.ensures_remove_agrees`, `Solver.ensures_suggest_agrees` —
  operations on a constraint
* `Solver.read_step_of_not_connected` — values elsewhere stay as they are
-/

namespace Cassowary

open Attempt

/-- A constraint with its symbols depends on its variables and its symbols only. -/
theorem Constraint.equation_congr {c : Constraint Rat} {h : Handle} {v w : Assignment Rat}
    (hkeys : ∀ k ∈ c.keys, v k = w k) (hmarkers : ∀ k ∈ h.markers, v k = w k) :
    c.equation h v = c.equation h w := by
  have hterms : c.terms.map (fun t => t.coefficient * v t.var) =
      c.terms.map fun t => t.coefficient * w t.var :=
    List.map_congr_left fun t ht => by rw [hkeys _ (List.mem_map.mpr ⟨t, ht, rfl⟩)]
  have hother : h.other.elim 0 v = h.other.elim 0 w := by
    cases hother : h.other with
    | none => rfl
    | some k => exact hmarkers k (Handle.mem_markers.mpr (.inr hother))
  unfold equation value
  rw [hterms, hother, hmarkers _ List.mem_cons_self]

/-- What a user may ask for is no symbol. -/
theorem Variable.internal_key (x : Variable) : x.key.internal = false := by
  rcases x.mentionable with hx | hx
  · exact Key.internal_of_unrestricted hx
  · rw [Key.internal, hx]
    rfl

namespace State

variable {s : State Rat} {t : Tableau Rat} {c : Constraint Rat} {h : Handle} {r : Record Rat}
  {k k' : Key} {exact quiet : Prop}

/-! ## Chains of constraints -/

/-- Two variables share a constraint if one that is held mentions both. -/
def Shares (s : State Rat) (k k' : Key) : Prop := ∃ e ∈ s.held, k ∈ e.1.keys ∧ k' ∈ e.1.keys

/-- A chain of constraints that are held leads from what a constraint mentions to a key. -/
def Connected (s : State Rat) (c : Constraint Rat) (k : Key) : Prop :=
  ∃ k₀ ∈ c.keys, Relation.ReflTransGen s.Shares k₀ k

/-- The keys that are connected with a constraint, and the symbols of the constraints over them.
Symbols that no constraint has are not far from anything. -/
def Near (s : State Rat) (c : Constraint Rat) (k : Key) : Prop :=
  (k.internal = false → s.Connected c k) ∧
    ∀ h r, s.constraints.get? h = some r → k ∈ h.markers → ∀ k' ∈ (s.current h r).keys,
      s.Connected c k'

theorem connected_of_mem_keys (hk : k ∈ c.keys) : s.Connected c k := ⟨k, hk, .refl⟩

theorem shares_of_current (hr : s.constraints.get? h = some r) (hk : k ∈ (s.current h r).keys)
    (hk' : k' ∈ (s.current h r).keys) : s.Shares k k' :=
  ⟨_, List.mem_map.mpr ⟨(h, r), Table.get?_eq_some_iff.mp hr, rfl⟩, hk, hk'⟩

theorem Connected.tail (hk : s.Connected c k) (hshares : s.Shares k k') : s.Connected c k' := by
  obtain ⟨k₀, hk₀, hchain⟩ := hk
  exact ⟨k₀, hk₀, hchain.tail hshares⟩

/-- If each constraint is inside a set of keys or outside it, chains do not lead out of the set. -/
theorem Connected.of_closed {P : Key → Bool} (hk : s.Connected c k) (hc : c.keys.all P = true)
    (hclosed : ∀ e ∈ s.held, e.1.keys.all P = true ∨ e.1.keys.all (!P ·) = true) : P k = true := by
  obtain ⟨k₀, hk₀, hchain⟩ := hk
  induction hchain with
  | refl => exact List.all_eq_true.mp hc k₀ hk₀
  | tail _ hshares ih =>
    obtain ⟨e, he, hmem, hmem'⟩ := hshares
    rcases hclosed e he with hinside | houtside
    · exact List.all_eq_true.mp hinside _ hmem'
    · have hnot := List.all_eq_true.mp houtside _ hmem
      rw [ih] at hnot
      cases hnot

/-! ## Near and far -/

theorem Tidy.unrestricted_of_mem_keys (hs : s.Tidy) (hr : s.constraints.get? h = some r)
    (hk : k ∈ (s.current h r).keys) : k.unrestricted = true := by
  obtain ⟨t, ht, rfl⟩ := List.mem_map.mp hk
  exact hs.overLayout_current hr t ht

/-- What is no symbol of a constraint is near if it is connected. -/
theorem Tidy.near_iff_of_unrestricted (hs : s.Tidy) (hk : k.unrestricted = true) :
    s.Near c k ↔ s.Connected c k := by
  refine ⟨fun hnear => hnear.1 (Key.internal_of_unrestricted hk), fun hconnected =>
    ⟨fun _ => hconnected, fun h r hr hmem => ?_⟩⟩
  rw [(hs.fits h r hr).unrestricted hmem] at hk
  cases hk

/-- A symbol of a constraint is near if the constraint is. -/
theorem Tidy.near_iff_of_mem_markers (hs : s.Tidy) (hr : s.constraints.get? h = some r)
    (hk : k ∈ h.markers) : s.Near c k ↔ ∀ k' ∈ (s.current h r).keys, s.Connected c k' := by
  refine ⟨fun hnear => hnear.2 h r hr hk, fun hconnected => ⟨fun hinternal => ?_, ?_⟩⟩
  · rw [(hs.fits h r hr).internal hk] at hinternal
    cases hinternal
  · intro h' r' hr' hk'
    obtain rfl := hs.apart h' r' h r k hr' hr hk' hk
    cases hr'.symm.trans hr
    exact hconnected

/-- Each constraint is near as a whole, or far as a whole. -/
theorem Tidy.composes (hs : s.Tidy) (c : Constraint Rat) :
    Tableau.Composes (s.Near c) s.Equations := by
  intro v w u hv hw hnear hfar
  rw [equations_iff] at hv hw ⊢
  intro h r hr
  have hkey : ∀ k ∈ (s.current h r).keys, (s.Near c k ↔ s.Connected c k) := fun k hk =>
    hs.near_iff_of_unrestricted (hs.unrestricted_of_mem_keys hr hk)
  have hmarker : ∀ k ∈ h.markers,
      (s.Near c k ↔ ∀ k' ∈ (s.current h r).keys, s.Connected c k') := fun k hk =>
    hs.near_iff_of_mem_markers hr hk
  by_cases hall : ∀ k ∈ (s.current h r).keys, s.Connected c k
  · rw [← hv h r hr]
    exact Constraint.equation_congr (fun k hk => hnear k ((hkey k hk).mpr (hall k hk)))
      fun k hk => hnear k ((hmarker k hk).mpr hall)
  · obtain ⟨k₀, hk₀, hnot⟩ : ∃ k₀ ∈ (s.current h r).keys, ¬ s.Connected c k₀ := by
      simpa only [not_forall, exists_prop] using hall
    have hnone : ∀ k ∈ (s.current h r).keys, ¬ s.Connected c k := fun k hk hconnected =>
      hnot (hconnected.tail (shares_of_current hr hk hk₀))
    rw [← hw h r hr]
    exact Constraint.equation_congr (fun k hk => hfar k (mt (hkey k hk).mp (hnone k hk)))
      fun k hk => hfar k (mt (hmarker k hk).mp hall)

namespace Sound

/-- Symbols that have not been given out are near. -/
theorem near_of_fresh (hs : s.Sound exact quiet) (hk : k.internal = true)
    (hindex : s.tableau.nextId ≤ k.index.toNat) : s.Near c k := by
  refine ⟨fun hinternal => ?_, fun h r hr hmem => ?_⟩
  · rw [hk] at hinternal
    cases hinternal
  · exact absurd (hs.known hr hmem hk) (not_lt.mpr hindex)

/-- The rows of a solver at rest do not mix near and far keys. -/
theorem confined (hs : s.Sound True quiet) (hartificial : s.tableau.artificial = none)
    (hdeferred : s.tableau.deferred = false) (c : Constraint Rat)
    (ht : t = s.tableau ∨ t = s.tableau.begin) : Tableau.Confined (s.Near c) s.tableau t := by
  have hstart : Tableau.Confined (s.Near c) s.tableau s.tableau := by
    refine ⟨fun _ _ => rfl, hs.tableau.prepared.represents.unmixed (hs.tidy.composes c),
      fun k _ hpivotable => hs.tableau.optimal trivial hdeferred k hpivotable, fun row hrow => ?_,
      fun k hk => ?_, hs.tableau.prepared.epsilon trivial, le_rfl⟩
    · rw [hartificial] at hrow
      cases hrow
    · rw [hs.tableau.queue] at hk
      cases hk
  rcases ht with rfl | rfl
  · exact hstart
  · exact hstart.of_eq rfl rfl (.inl rfl) (fun _ => id) rfl le_rfl

end Sound

/-! ## Mentions -/

/-- A count that is changed for some variables is as before for all others. -/
theorem get?_foldl_alter {ks : List Key} {f : Table Key Nat → Key → Table Key Nat}
    (hf : ∀ references k k', k' ≠ k → (f references k).get? k' = references.get? k')
    (references : Table Key Nat) (hk : k ∉ ks) :
    (ks.foldl f references).get? k = references.get? k := by
  induction ks generalizing references with
  | nil => rfl
  | cons k' ks ih =>
    have hne : k ≠ k' := fun heq => hk (heq ▸ List.mem_cons_self)
    rw [List.foldl_cons, ih _ fun hmem => hk (List.mem_cons_of_mem _ hmem), hf _ _ _ hne]

theorem get?_references_register (s : State Rat) (h : Handle) (r : Record Rat)
    (hk : k ∉ r.constraint.keys) : (s.register h r).references.get? k = s.references.get? k :=
  get?_foldl_alter (fun _ _ _ => Table.get?_alter_of_ne _ _) _ hk

theorem get?_references_unregister (hr : s.constraints.get? h = some r)
    (hk : k ∉ r.constraint.keys) : (s.unregister h).references.get? k = s.references.get? k := by
  rw [unregister_eq hr]
  exact get?_foldl_alter (fun _ _ _ => Table.get?_alter_of_ne _ _) _ hk

end State

namespace Solver

variable {s s' s'' : Solver Rat} {config : Config Rat} {h : Handle} {r : Record Rat}
  {c : Constraint Rat} {w : Strength Rat} {x y : Variable} {e : Edit Rat} {k : Key}
  {quiet : Prop}

/-! ## Operations on a constraint -/

/-- Two solvers know the same of a key. -/
structure Agrees (s s' : Solver Rat) (k : Key) : Prop where
  poisoned : s'.poisoned = s.poisoned
  row : s'.state.tableau.rows.get? k = s.state.tableau.rows.get? k
  references : s'.state.references.get? k = s.state.references.get? k

theorem Agrees.read_eq (h : s.Agrees s' y.key) : s'.read y = s.read y := by
  unfold read Table.contains
  rw [h.poisoned, h.row, h.references]

/-- What is not connected with a constraint does not notice it coming. -/
theorem ensures_insert_agrees (hrest : s.AtRest config) (hs : s.Sound True quiet)
    (hbatch : s.batch = none) (hc : c.OverLayout) (w : Strength Rat)
    (hy : ¬ s.state.Connected c y.key) :
    Ensures (insert c w) s (fun _ s' => s.Agrees s' y.key) fun _ _ => True := by
  have hfar : ¬ s.state.Near c y.key := fun hnear => hy (hnear.1 y.internal_key)
  have hconfined : ∀ t, t = s.state.tableau ∨ t = s.state.tableau.begin →
      Ensures (Tableau.addConstraint c w s.isBatching) t
        (fun _ t' => Tableau.Confined (s.state.Near c) s.state.tableau t') fun _ _ => True := by
    intro t ht
    refine Tableau.ensures_addConstraint_confined (fun _ => hs.state.near_of_fresh)
      (hs.state.confined hrest.tableau.artificial (hs.settled hbatch) c ht) (fun k hk => ?_) _
    obtain ⟨term, hterm, rfl⟩ := List.mem_map.mp hk
    exact (hs.state.tidy.near_iff_of_unrestricted (hc term hterm)).mpr
      (State.connected_of_mem_keys hk)
  refine ensures_insert_of ((ensures_guarded_of (fun _ => Tableau.keeps_addConstraint c w _) hrest
    hconfined).imp ?_ fun _ _ _ => trivial)
  rintro h s' ⟨t, ht, rfl⟩
  exact ⟨rfl, ht.far _ hfar, State.get?_references_register _ h ⟨c, w⟩ fun hk =>
    hy (State.connected_of_mem_keys hk)⟩

/-- What is not connected with a constraint that is held does not notice it going. -/
theorem ensures_remove_agrees (hrest : s.AtRest config) (hs : s.Sound True quiet)
    (hbatch : s.batch = none) (hr : s.state.constraints.get? h = some r)
    (hy : ¬ s.state.Connected (s.state.current h r) y.key) :
    Ensures (remove h) s (fun gone s' => gone = true → s.Agrees s' y.key) fun _ _ => True := by
  have hfar : ¬ s.state.Near (s.state.current h r) y.key := fun hnear =>
    hy (hnear.1 y.internal_key)
  refine ensures_remove_of (fun _ => nofun) fun r' hr' => ?_
  cases hr'.symm.trans hr
  refine (ensures_guarded_of
    (fun _ => Tableau.keeps_removeConstraint h r.strength s.isBatching) hrest fun t ht =>
      Tableau.ensures_removeConstraint_confined
        (hs.state.confined hrest.tableau.artificial (hs.settled hbatch) (s.state.current h r) ht)
        (fun k hk => (hs.state.tidy.near_iff_of_mem_markers hr hk).mpr fun _ =>
          State.connected_of_mem_keys) r.strength s.isBatching).imp ?_ fun _ _ _ => nofun
  rintro _ _ ⟨t, ht, rfl⟩ -
  have hr' : ({ s.state with tableau := t.commit } : State Rat).constraints.get? h = some r := hr
  refine ⟨rfl, ?_, ?_⟩
  · dsimp only
    rw [State.unregister_eq hr']
    exact ht.far _ hfar
  · refine State.get?_references_unregister hr' fun hk => hy (State.connected_of_mem_keys ?_)
    rwa [hs.state.tidy.keys_current hr]

/-- What is not connected with a variable does not notice it becoming an edit variable. -/
theorem ensures_startEdit_agrees (hrest : s.AtRest config) (hs : s.Sound True quiet)
    (hbatch : s.batch = none) (w : Strength Rat)
    (hy : ¬ s.state.Connected (x.heldAt ((s.read x).getD 0)) y.key) :
    Ensures (startEdit x w) s (fun _ s' => s.Agrees s' y.key) fun _ _ => True := by
  refine ensures_startEdit_of (fun _ => trivial) (fun _ => trivial) fun _ _ =>
    (ensures_insert_agrees hrest hs hbatch (x.overLayout_heldAt _) w hy).imp ?_ fun _ _ => id
  exact fun _ _ h => ⟨h.poisoned, h.row, h.references⟩

/-- What is not connected with an edit variable does not notice it becoming an ordinary one
again. -/
theorem ensures_stopEdit_agrees (hrest : s.AtRest config) (hs : s.Sound True quiet)
    (hbatch : s.batch = none) (he : s.state.edits.get? x = some e)
    (hy : ¬ s.state.Connected (x.heldAt e.target) y.key) :
    Ensures (stopEdit x) s (fun _ s' => s.Agrees s' y.key) fun _ _ => True := by
  obtain ⟨r, hr, -⟩ := hs.state.tidy.edit x e he
  rw [← hs.state.tidy.current_of_edit he r] at hy
  refine ensures_stopEdit_of (fun _ => trivial) fun e' he' => ?_
  cases he'.symm.trans he
  refine (ensures_remove_agrees hrest hs hbatch hr hy).imp (fun gone s' h => ?_) fun _ _ => id
  cases gone with
  | false => trivial
  | true =>
    obtain ⟨hpoisoned, hrow, hreferences⟩ := h rfl
    exact ⟨hpoisoned, hrow, hreferences⟩

/-- What is not connected with a variable does not notice its target moving. -/
theorem ensures_suggest_agrees (hrest : s.AtRest config) (hs : s.Sound True quiet)
    (hbatch : s.batch = none) (he : s.state.edits.get? x = some e) (target : Rat)
    (hy : ¬ s.state.Connected (x.heldAt e.target) y.key) :
    Ensures (suggest x target) s (fun _ s' => s.Agrees s' y.key) fun _ _ => True := by
  obtain ⟨r, hr, -⟩ := hs.state.tidy.edit x e he
  rw [← hs.state.tidy.current_of_edit he r] at hy
  have hfar : ¬ s.state.Near (s.state.current e.handle r) y.key := fun hnear =>
    hy (hnear.1 y.internal_key)
  refine ensures_suggest_of (fun _ => trivial) fun e' he' => ?_
  cases he'.symm.trans he
  refine (ensures_guarded_of (fun _ => Tableau.keeps_suggest e.handle _) hrest fun t ht =>
    Tableau.ensures_suggest_confined
      (hs.state.confined hrest.tableau.artificial (hs.settled hbatch) (s.state.current e.handle r)
        ht) (fun k hk => (hs.state.tidy.near_iff_of_mem_markers hr hk).mpr fun _ =>
          State.connected_of_mem_keys) _).imp ?_ fun _ _ _ => trivial
  rintro _ s' ⟨t, ht, rfl⟩
  exact ⟨rfl, ht.far _ hfar, rfl⟩

/-! ## All operations -/

/-- The constraint that an operation on a constraint or an edit variable is about. -/
def touched (s : Solver Rat) : Operation Rat → Option (Constraint Rat)
  | .insert c _ => some c
  | .remove h => (s.state.constraints.get? h).map (s.state.current h)
  | .startEdit x _ => some (x.heldAt ((s.read x).getD 0))
  | .stopEdit x | .suggest x _ => (s.state.edits.get? x).map (x.heldAt ·.target)
  | _ => none

/-- In exact arithmetic, after any run that leaves the solver with values and no batch open: an
operation on a constraint that succeeds leaves the values of all variables as they are that no chain
of constraints connects with it. -/
theorem read_step_of_not_connected (hepsilon : config.epsilon = 0) {os : List (Operation Rat)}
    (hos : ∀ o ∈ os, o.Lawful True) (hrun : (ofConfig config).run os = s)
    (hpoisoned : s.poisoned = false) (hbatch : s.batch = none) {o : Operation Rat}
    (ho : o.Lawful True) (hc : s.touched o = some c) {answer : Answer}
    (hanswer : (s.step o).1 = .ok answer) (hdone : answer ≠ .removed false)
    (hy : ¬ s.state.Connected c y.key) : (s.step o).2.read y = s.read y := by
  subst hrun
  have hrest : ((ofConfig config).run os).AtRest config := Reachable.atRest ⟨os, rfl⟩
  have hs : ((ofConfig config).run os).Sound True False :=
    sound_run (fun _ => hepsilon) hos (fun _ => nofun) hpoisoned
  generalize (ofConfig config).run os = s at *
  have hensures : Ensures (perform o) s
      (fun answer s' => answer ≠ .removed false → s.Agrees s' y.key) fun _ _ => True := by
    cases o with
    | insert c' w =>
      cases hc
      exact ensures_map _ |>.mpr ((ensures_insert_agrees hrest hs hbatch ho.1 w hy).imp
        (fun _ _ h _ => h) fun _ _ => id)
    | remove h =>
      obtain ⟨r, hr, rfl⟩ := Option.map_eq_some_iff.mp hc
      refine ensures_map _ |>.mpr ((ensures_remove_agrees hrest hs hbatch hr hy).imp
        (fun gone _ h hgone => h ?_) fun _ _ => id)
      cases gone with
      | true => rfl
      | false => exact absurd rfl hgone
    | startEdit x w =>
      cases hc
      exact ensures_bind _ |>.mpr ((ensures_startEdit_agrees hrest hs hbatch w hy).imp
        (fun _ _ h _ => h) fun _ _ => id)
    | stopEdit x =>
      obtain ⟨e, he, rfl⟩ := Option.map_eq_some_iff.mp hc
      exact ensures_bind _ |>.mpr ((ensures_stopEdit_agrees hrest hs hbatch he hy).imp
        (fun _ _ h _ => h) fun _ _ => id)
    | suggest x target =>
      obtain ⟨e, he, rfl⟩ := Option.map_eq_some_iff.mp hc
      exact ensures_bind _ |>.mpr ((ensures_suggest_agrees hrest hs hbatch he target hy).imp
        (fun _ _ h _ => h) fun _ _ => id)
    | _ => cases hc
  exact (hensures.of_ok hanswer hdone).read_eq

/-- A chain of two constraints, of which one goes. -/
def divided : List (Operation Rat) :=
  [.insert (.ofFormulas (.var (.external 1)) .equal (.add (.var (.external 0)) (.number 1)))
      .required,
    .insert (.ofFormulas (.var (.external 2)) .greaterOrEqual (.var (.external 1))) .required,
    .insert ((Variable.external 2).heldAt 5) .weak, .startEdit (.external 0) .strong,
    .suggest (.external 0) 7, .remove ⟨⟨.slack, false, 1⟩, none⟩]

/-- The target of the first variable moves the second one with it. The third one, which the chain
led to before, stays where it is. -/
theorem read_step_of_not_connected_divided :
    ¬ ((ofConfig ⟨0, true, 100⟩).run divided).state.Connected ((Variable.external 0).heldAt 7)
        (Variable.external 2).key ∧
      ((((ofConfig ⟨0, true, 100⟩).run divided).step (.suggest (.external 0) 9)).2.read
        (.external 1)) = .value 10 ∧
      (((ofConfig ⟨0, true, 100⟩).run divided).step (.suggest (.external 0) 9)).2.read
        (.external 2) = ((ofConfig ⟨0, true, 100⟩).run divided).read (.external 2) := by
  have hlawful : ∀ o ∈ divided, o.Lawful True := by
    intro o ho
    simp only [divided, List.mem_cons, List.not_mem_nil, or_false] at ho
    rcases ho with rfl | rfl | rfl | rfl | rfl | rfl
    · exact ⟨Constraint.overLayout_reduce _ _ _, fun _ => by decide +kernel⟩
    · exact ⟨Constraint.overLayout_reduce _ _ _, fun _ => by decide +kernel⟩
    · exact ⟨Variable.overLayout_heldAt _ _, fun _ => by decide +kernel⟩
    · exact fun _ => by decide +kernel
    · exact trivial
    · exact trivial
  have hfar : ¬ ((ofConfig ⟨0, true, 100⟩).run divided).state.Connected
      ((Variable.external 0).heldAt 7) (Variable.external 2).key := fun hconnected =>
    absurd (hconnected.of_closed (P := (· ∈ [(Variable.external 0).key, (Variable.external 1).key]))
      (by decide +kernel) (by decide +kernel)) (by decide +kernel)
  have htouched : ((ofConfig ⟨0, true, 100⟩).run divided).touched (.suggest (.external 0) 9) =
      some ((Variable.external 0).heldAt 7) := by decide +kernel
  have hdone : (((ofConfig ⟨0, true, 100⟩).run divided).step (.suggest (.external 0) 9)).1 =
      .ok .done := by decide +kernel
  refine ⟨hfar, by decide +kernel, ?_⟩
  exact read_step_of_not_connected rfl hlawful rfl (by decide +kernel) (by decide +kernel) trivial
    htouched hdone (by decide) hfar

end Solver

end Cassowary
