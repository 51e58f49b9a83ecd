import Cassowary.Proofs.Basis

/-!
# What an operation does to the books

Three tables are written whenever a constraint or an edit variable comes or goes: the constraints,
the edit variables, and the counts of how often each variable is mentioned. An operation may fail
halfway, be undone, or go back to the start of a batch, but there are only a few things that it can
come to. They are listed here once, whatever the arithmetic is, and what the books keep follows from
the list.

A constraint that comes has symbols from the next index on. Only dropping everything and going back
to the start of a batch rewind that index.

## Main definitions

* `Operation.Reduced` — an operation that inserts a reduced constraint, if any
* `Solver.issued` — the handle that an operation gives out
* `Solver.rewinds` — whether an operation goes back to an earlier index
* `Solver.Retains`, `Solver.Posting` — what an operation does to the books

## Main results

* `Tableau.ensures_addConstraint_between` — the symbols of a constraint that comes
* `Solver.posting_step` — every operation does what a posting allows
* `Solver.Posting.between` — the index, and the handle that is given out
-/

namespace Cassowary

/-! ## The variables of a reduced constraint -/

namespace Constraint

variable {α : Type} [Scalar α]

/-- Each key has one sum, and a sum has one kind. -/
theorem nodup_ordered (sums : Table Key α) : ((ordered sums).map (·.var)).Nodup := by
  rw [ordered, List.map_flatMap, List.nodup_flatMap]
  constructor
  · intro kind _
    rw [List.map_map]
    exact sums.nodup_keys.sublist (List.filter_sublist.map _)
  · have hkinds : [Kind.external, .localAux, .globalAux].Pairwise (· ≠ ·) := by decide
    refine hkinds.imp fun hne k hk hk' => hne ?_
    have hkind : ∀ {kind : Kind}, k ∈ ((sums.entries.filter fun e => e.1.kind = kind ∧
        zeroTerm < Scalar.magnitude e.2).map fun e => (⟨e.1, e.2⟩ : Term Key α)).map (·.var) →
        k.kind = kind := by
      intro kind hk
      rw [List.map_map] at hk
      obtain ⟨e, he, rfl⟩ := List.mem_map.mp hk
      exact (of_decide_eq_true (List.mem_filter.mp he).2).1
    exact (hkind hk).symm.trans (hkind hk')

/-- A reduced constraint lists no variable twice. -/
theorem nodup_keys_reduce (lhs : LinearForm α) (comparison : Comparison) (rhs : LinearForm α) :
    (reduce lhs comparison rhs).keys.Nodup := by
  have hterms := nodup_ordered (merged (gathered lhs rhs))
  have hneg : (((ordered (merged (gathered lhs rhs))).map (-·)).map (·.var)).Nodup := by
    rw [List.map_map]
    exact hterms
  cases comparison <;> first | exact hterms | exact hneg

end Constraint

/-- An operation that inserts a constraint inserts a reduced one. -/
def Operation.Reduced {α : Type} [Scalar α] : Operation α → Prop
  | .insert c _ => ∃ lhs comparison rhs, c = .reduce lhs comparison rhs
  | _ => True

theorem Operation.Reduced.overLayout {α : Type} [Scalar α] {o : Operation α} (h : o.Reduced) :
    o.OverLayout := by
  cases o with
  | insert c w =>
    obtain ⟨lhs, comparison, rhs, rfl⟩ := h
    exact Constraint.overLayout_reduce lhs comparison rhs
  | _ => trivial

/-- What an operation inserts mentions layout variables only, and each of them once. -/
theorem Operation.Reduced.added {α : Type} [Scalar α] {o : Operation α} (h : o.Reduced)
    {s : Solver α} {c : Constraint α} {w : Strength α} (hadded : o.added s = some (c, w)) :
    c.OverLayout ∧ c.keys.Nodup := by
  cases o with
  | insert c' w' =>
    cases hadded
    obtain ⟨lhs, comparison, rhs, rfl⟩ := h
    exact ⟨Constraint.overLayout_reduce _ _ _, Constraint.nodup_keys_reduce _ _ _⟩
  | startEdit x w' =>
    cases hadded
    exact ⟨x.overLayout_heldAt _, Constraint.nodup_keys_reduce _ _ _⟩
  | _ => cases hadded

/-- The symbols of a handle, given out between two indices. -/
structure Handle.Between (h : Handle) (n m : Nat) : Prop where
  fresh : h.Fresh n
  lt : ∀ k ∈ h.markers, k.index.toNat < m

/-! ## New handles -/

namespace Tableau

open Attempt

variable {α : Type} [Scalar α] {t : Tableau α} {n : Nat} {c : Constraint α} {w : Strength α}

/-- An insertion gives out the symbols of its constraint, and they are of the kinds that fit it. -/
theorem ensures_addConstraint_between (h : t.Apart n) (hc : c.OverLayout) (defer : Bool) :
    Ensures (addConstraint c w defer) t
      (fun h t' => t.nextId ≤ t'.nextId ∧ h.Fits c.relation w.isRequired ∧
        h.Between t.nextId t'.nextId)
      fun _ t' => t.nextId ≤ t'.nextId := by
  have hany : ∀ {β : Type} {action : Attempt (Tableau α) β} {t : Tableau α}
      {done : β → Tableau α → Prop}, (∀ b t, done b t) → Ensures action t done fun _ _ => True :=
    fun hdone => ensures_self.imp (fun b t _ => hdone b t) fun _ _ _ => trivial
  have hsymbols : Ensures (addConstraint c w defer) t
      (fun h _ => h.Fits c.relation w.isRequired ∧ h.Fresh t.nextId) fun _ _ => True := by
    refine ensures_bind _ |>.mpr (ensures_createRow_of
      ((ensures_addMarkers _ _ w t).imp ?_ fun _ _ _ => trivial))
    rintro ⟨row, handle⟩ t' ⟨-, hfits, hfresh, -⟩
    exact ensures_bind _ |>.mpr (hany fun _ _ => ensures_bind _ |>.mpr
      (hany fun _ _ => ⟨hfits, hfresh⟩))
  refine ((ensures_addConstraint_apart h.now hc w defer).and hsymbols).imp ?_ ?_
  · rintro h t' ⟨⟨happart, hknown⟩, hfits, hfresh⟩
    exact ⟨happart.given, hfits, hfresh, fun k hk => hknown k hk (hfresh.internal k hk)⟩
  · exact fun _ t' h' => h'.1.given

end Tableau

/-! ## What an operation does to the books -/

namespace Operation

variable {α : Type}

/-- The handle that an operation has given out, to its caller or to an edit variable. -/
def issued : Operation α → Except SolverError Answer × Solver α → Option Handle
  | .insert _ _, (.ok (.inserted h), _) => some h
  | .startEdit x _, (.ok _, s) => (s.state.edits.get? x).map (·.handle)
  | _, _ => none

/-- Whether an operation has gone back to an index that there was before: it has dropped everything,
or a batch has failed at its end and could be undone. -/
def rewinds (s : Solver α) : Operation α → Except SolverError Answer × Solver α → Bool
  | .clear, _ => true
  | .closeBatch, result => (s.batch.bind (·.snapshot)).isSome && refused result.1
  | _, _ => false

end Operation

namespace Solver

open Attempt

variable {α : Type}

/-- Constraints and edit variables stay as they are, though targets may move and edit variables may
go. A batch may be opened or closed. -/
structure Retains (s s' : Solver α) : Prop where
  constraints : s'.state.constraints = s.state.constraints
  references : s'.state.references = s.state.references
  edits : ∀ x e, s'.state.edits.get? x = some e →
    ∃ e', s.state.edits.get? x = some e' ∧ e'.handle = e.handle
  given : s.state.tableau.nextId ≤ s'.state.tableau.nextId
  snapshot : ∀ b state, s'.batch = some b → b.snapshot = some state →
    s.batch = some b ∨ state = s.state
  insertions : s'.insertions = s.insertions
  removals : s'.removals = s.removals

namespace Retains

variable {s s' : Solver α}

theorem refl (s : Solver α) : s.Retains s :=
  ⟨rfl, rfl, fun _ e he => ⟨e, he, rfl⟩, le_rfl, fun _ _ hb _ => .inl hb, rfl, rfl⟩

/-- Only the tableau changes, and the index does not go back. -/
theorem withTableau (s : Solver α) {t : Tableau α} (hid : s.state.tableau.nextId ≤ t.nextId) :
    s.Retains { s with state := { s.state with tableau := t } } :=
  ⟨rfl, rfl, fun _ e he => ⟨e, he, rfl⟩, hid, fun _ _ hb _ => .inl hb, rfl, rfl⟩

end Retains

variable [Scalar α] {config : Config α} {s s' : Solver α}

/-- What an operation does to the books, with the handle that it gives out, and whether it rewinds
the index. -/
inductive Posting (s : Solver α) : Option Handle → Bool → Solver α → Prop where
  /-- No constraint comes or goes. -/
  | kept {s' : Solver α} (hs' : s.Retains s') : s.Posting none false s'
  /-- A constraint comes, and an edit variable may come to be held by it. -/
  | entered {s₁ : Solver α} {h : Handle} {c : Constraint α} {w : Strength α}
      {edits : Table Variable (Edit α)} (hs₁ : s.Retains s₁)
      (hfits : h.Fits c.relation w.isRequired)
      (hbetween : h.Between s.state.tableau.nextId s₁.state.tableau.nextId)
      (hlisted : c.keys.Nodup)
      (hedits : edits = s₁.state.edits ∨ ∃ x target, c.relation = .equal ∧
        w.isRequired = false ∧ edits = s₁.state.edits.insert x ⟨h, target⟩) :
      s.Posting (some h) false
        { s₁ with
          state := { s₁.state.register h ⟨c, w⟩ with edits := edits }
          insertions := s₁.insertions + 1 }
  /-- A constraint goes, and the edit variable with it that it holds. -/
  | struck {s₁ : Solver α} {h : Handle} {r : Record α} {edits : Table Variable (Edit α)}
      (hs₁ : s.Retains s₁) (hr : s₁.state.constraints.get? h = some r)
      (hedits : ∀ x e, edits.get? x = some e →
        (s₁.state.unregister h).edits.get? x = some e) :
      s.Posting none false
        { s₁ with
          state := { s₁.state.unregister h with edits := edits }
          removals := s₁.removals + 1 }
  /-- Everything goes. -/
  | dropped : s.Posting none true s.clear
  /-- The books are again what they were at the start of the batch. -/
  | restored {b : Batch α} {state : State α} {n : Nat} (hb : s.batch = some b)
      (hstate : b.snapshot = some state) :
      s.Posting none true { s with state := state, batch := none, failures := n }

/-- The handle that an operation gives out. -/
def issued (s : Solver α) (o : Operation α) : Option Handle := o.issued (s.step o)

/-- Whether an operation goes back to an index that there was before. -/
def rewinds (s : Solver α) (o : Operation α) : Bool := o.rewinds s (s.step o)

omit [Scalar α] in
theorem ensures_guarded_retains {β : Type} {operation : Attempt (Tableau α) β}
    {done : β → Tableau α → Prop} (hkeeps : ∀ t₀, Keeps operation (Tableau.RecoversTo · t₀))
    (hrest : s.AtRest config)
    (hoperation : Ensures operation s.opening
      (fun b t => s.state.tableau.nextId ≤ t.nextId ∧ done b t)
      fun _ t => s.state.tableau.nextId ≤ t.nextId) :
    Ensures (guarded operation) s
      (fun b s' => s.Retains s' ∧ ∃ t, done b t ∧ s'.state.tableau = t.commit)
      fun _ s' => s.Retains s' := by
  refine (ensures_guarded_cases hkeeps hrest hoperation).imp ?_ ?_
  · rintro b _ ⟨t, ⟨hid, hdone⟩, rfl⟩
    have hcommit : s.state.tableau.nextId ≤ t.commit.nextId := hid
    exact ⟨.withTableau s hcommit, t, hdone, rfl⟩
  · rintro _ _ ⟨t, hid, ⟨n, rfl⟩ | ⟨n, rfl⟩⟩
    · exact ⟨rfl, rfl, fun _ e he => ⟨e, he, rfl⟩, le_rfl, fun _ _ hb _ => .inl hb, rfl, rfl⟩
    · exact ⟨rfl, rfl, fun _ e he => ⟨e, he, rfl⟩, hid, fun _ _ hb _ => .inl hb, rfl, rfl⟩

theorem ensures_insert_retains (hrest : s.AtRest config) (hs : s.Apart) {c : Constraint α}
    (hc : c.OverLayout) (w : Strength α) :
    Ensures (insert c w) s
      (fun h s' => ∃ s₁, s.Retains s₁ ∧ h.Fits c.relation w.isRequired ∧
        h.Between s.state.tableau.nextId s₁.state.tableau.nextId ∧
        s' = { s₁ with
          state := s₁.state.register h ⟨c, w⟩, insertions := s₁.insertions + 1 })
      fun _ s' => s.Retains s' := by
  have hadd := Tableau.ensures_addConstraint_between (w := w) hs.opening hc s.isBatching
  rw [nextId_opening] at hadd
  refine ensures_insert_of ((ensures_guarded_retains
    (fun _ => Tableau.keeps_addConstraint c w _) hrest hadd).imp ?_ fun _ _ => id)
  rintro h s₁ ⟨hs₁, t, ⟨hfits, hbetween⟩, heq⟩
  have hnext : t.nextId = s₁.state.tableau.nextId := by rw [heq]; rfl
  rw [hnext] at hbetween
  exact ⟨s₁, hs₁, hfits, hbetween, rfl⟩

theorem ensures_remove_retains (hrest : s.AtRest config) (hs : s.Apart) (h : Handle) :
    Ensures (remove h) s
      (fun gone s' => gone = false ∧ s.Retains s' ∨
        gone = true ∧ ∃ s₁ r, s.Retains s₁ ∧ s₁.state.constraints.get? h = some r ∧
          s' = { s₁ with state := s₁.state.unregister h, removals := s₁.removals + 1 })
      fun _ _ => False := by
  refine ensures_remove_of (fun _ => .inl ⟨rfl, .refl s⟩) fun r hr => ?_
  have hknown : ∀ k ∈ h.markers, s.opening.Known k := fun k hk =>
    (hs.state.known h r hr k hk).mono hs.opening.given
  have hremove := (Tableau.ensures_removeConstraint_apart hs.opening hknown r.strength
    s.isBatching).imp (fun _ t ht => And.intro ht.given trivial) fun _ t ht => ht.given
  refine (ensures_guarded_retains
    (fun _ => Tableau.keeps_removeConstraint h r.strength s.isBatching) hrest hremove).imp ?_
      fun _ _ hs' => .inl ⟨rfl, hs'⟩
  rintro _ s₁ ⟨hs₁, -⟩
  exact .inr ⟨rfl, s₁, r, hs₁, by rw [hs₁.constraints, hr], rfl⟩

/-- Targets move, and nothing else does. -/
theorem ensures_suggest_retains (hrest : s.AtRest config) (hs : s.Apart) (x : Variable)
    (target : α) :
    Ensures (suggest x target) s (fun _ s' => s.Retains s') fun _ s' => s.Retains s' := by
  refine ensures_suggest_of (fun _ => .refl s) fun e _ => ?_
  have hsuggest := (Tableau.keeps_suggest_apart e.handle (target - e.target) _ hs.opening).imp
    (fun _ t ht => And.intro ht.given trivial) fun _ t ht => ht.given
  refine (ensures_guarded_retains (fun _ => Tableau.keeps_suggest e.handle _) hrest hsuggest).imp
    ?_ fun _ _ => id
  rintro _ s₁ ⟨hs₁, -⟩
  refine ⟨hs₁.constraints, hs₁.references, fun x' e' he' => ?_, hs₁.given, hs₁.snapshot,
    hs₁.insertions, hs₁.removals⟩
  by_cases hx : x' = x
  · dsimp only at he'
    rw [hx, Table.get?_alter_self] at he'
    obtain ⟨e₁, he₁, rfl⟩ := Option.map_eq_some_iff.mp he'
    exact hx ▸ hs₁.edits x e₁ he₁
  · dsimp only at he'
    rw [Table.get?_alter_of_ne _ _ hx] at he'
    exact hs₁.edits x' e' he'

omit [Scalar α] in
theorem ensures_openBatch_retains :
    Ensures openBatch s (fun _ s' => s.Retains s') fun _ s' => s.Retains s' := by
  refine ensures_openBatch_of (fun _ => .refl s) fun _ b hb =>
    ⟨rfl, rfl, fun _ e he => ⟨e, he, rfl⟩, le_rfl, ?_, rfl, rfl⟩
  rintro _ state ⟨⟩ hsnapshot
  exact .inr (hb state hsnapshot)

/-- Only a batch that fails at its end and can be undone goes back. -/
theorem ensures_closeBatch_posting (hs : s.Apart) :
    Ensures closeBatch s (fun _ s' => s.Posting none false s')
      fun _ s' => s.Posting none (s.batch.bind (·.snapshot)).isSome s' := by
  refine ensures_closeBatch_of (fun hnone => ?_) fun b hb =>
    (Tableau.keeps_solve_apart _ hs.state.tableau).imp (fun _ t ht => ?_)
      fun _ t ht => ⟨fun state hsnapshot => ?_, fun hsnapshot => ?_⟩
  · rw [hnone]
    exact .kept (.refl s)
  · exact .kept ⟨rfl, rfl, fun _ e he => ⟨e, he, rfl⟩, ht.given, fun _ _ => nofun, rfl, rfl⟩
  · rw [hb, Option.bind_some, hsnapshot]
    exact .restored hb hsnapshot
  · rw [hb, Option.bind_some, hsnapshot]
    exact .kept ⟨rfl, rfl, fun _ e he => ⟨e, he, rfl⟩, ht.given, fun _ _ => nofun, rfl, rfl⟩

/-! ## Every operation -/

/-- An operation does to the books what a posting allows. -/
theorem ensures_perform_posting (hrest : s.AtRest config) (hs : s.Apart) {o : Operation α}
    (ho : o.Reduced) :
    Ensures (perform o) s
      (fun answer s' => s.Posting (o.issued (.ok answer, s')) (o.rewinds s (.ok answer, s')) s')
      fun cause s' =>
        s.Posting (o.issued (.error cause, s')) (o.rewinds s (.error cause, s')) s' := by
  cases o with
  | insert c w =>
    obtain ⟨hc, hlisted⟩ := ho.added (s := s) rfl
    refine ensures_map _ |>.mpr ((ensures_insert_retains hrest hs hc w).imp ?_ ?_)
    · rintro h _ ⟨s₁, hs₁, hfits, hbetween, rfl⟩
      exact .entered hs₁ hfits hbetween hlisted (.inl rfl)
    · exact fun _ _ hs' => .kept hs'
  | remove h =>
    refine ensures_map _ |>.mpr ((ensures_remove_retains hrest hs h).imp ?_ fun _ _ => False.elim)
    rintro gone _ (⟨-, hs'⟩ | ⟨-, s₁, r, hs₁, hr, rfl⟩)
    · exact .kept hs'
    · exact .struck hs₁ hr fun _ _ => id
  | startEdit x w =>
    obtain ⟨hc, hlisted⟩ := ho.added (s := s) rfl
    refine ensures_bind _ |>.mpr (ensures_startEdit_of (fun _ => .kept (.refl s))
      (fun _ => .kept (.refl s)) fun _ hsoft => ?_)
    refine (ensures_insert_retains hrest hs hc w).imp ?_ fun _ _ hs' => .kept hs'
    rintro h _ ⟨s₁, hs₁, hfits, hbetween, rfl⟩
    simp only [ensures_pure, Operation.issued, Table.get?_insert, if_pos, Option.map_some]
    exact .entered hs₁ hfits hbetween hlisted (.inr ⟨x, _, rfl, hsoft, rfl⟩)
  | stopEdit x =>
    refine ensures_bind _ |>.mpr (ensures_stopEdit_of (fun _ => .kept (.refl s)) fun e _ =>
      (ensures_remove_retains hrest hs e.handle).imp ?_ fun _ _ => False.elim)
    rintro gone _ (⟨rfl, hs'⟩ | ⟨rfl, s₁, r, hs₁, hr, rfl⟩)
    · exact .kept hs'
    · refine .struck hs₁ hr fun x' e' he' => ?_
      rw [Table.get?_erase] at he'
      split at he'
      · cases he'
      · exact he'
  | suggest x target =>
    exact ensures_bind _ |>.mpr ((ensures_suggest_retains hrest hs x target).imp
      (fun _ _ hs' => .kept hs') fun _ _ hs' => .kept hs')
  | openBatch =>
    exact ensures_bind _ |>.mpr (ensures_openBatch_retains.imp
      (fun _ _ hs' => .kept hs') fun _ _ hs' => .kept hs')
  | closeBatch =>
    refine ensures_bind _ |>.mpr ((ensures_closeBatch_posting hs).imp (fun _ s' hs' => ?_)
      fun cause s' hs' => ?_)
    · have hdone : Operation.rewinds s .closeBatch (.ok .done, s') = false := Bool.and_false _
      rwa [ensures_pure, hdone]
    · have hfailed : Operation.rewinds s .closeBatch (.error cause, s') =
          (s.batch.bind (·.snapshot)).isSome := Bool.and_true _
      rwa [hfailed]
  | clear => exact .dropped

/-- What every step does to the books. -/
theorem posting_step (hrest : s.AtRest config) (hs : s.Apart) {o : Operation α} (ho : o.Reduced) :
    s.Posting (s.issued o) (s.rewinds o) (s.step o).2 := by
  unfold issued rewinds step
  rcases (ensures_perform_posting hrest hs ho).outcome with ⟨answer, hresult, h⟩ | ⟨_, hresult, h⟩
  · rwa [← hresult] at h
  · rwa [← hresult] at h

/-- Unless the index is rewound, it does not go back, and a handle that is given out has its symbols
from there on. -/
theorem Posting.between {issued : Option Handle} (h : s.Posting issued false s') :
    s.state.tableau.nextId ≤ s'.state.tableau.nextId ∧
      ∀ handle ∈ issued, handle.Between s.state.tableau.nextId s'.state.tableau.nextId := by
  cases h with
  | kept hs' => exact ⟨hs'.given, fun _ hmem => absurd hmem (Option.not_mem_none _)⟩
  | entered hs₁ _ hbetween _ _ =>
    refine ⟨hs₁.given, fun handle hmem => ?_⟩
    cases hmem
    exact hbetween
  | @struck s₁ h r edits hs₁ hr _ =>
    refine ⟨?_, fun _ hmem => absurd hmem (Option.not_mem_none _)⟩
    dsimp only
    rw [State.unregister_eq hr]
    exact hs₁.given

end Solver

end Cassowary
