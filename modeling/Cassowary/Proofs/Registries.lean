import Cassowary.Proofs.Posting

/-!
# The books of a solver balance

The constraints, the edit variables and the counts of mentions agree with each other after every
operation, whether it succeeds, fails and is undone, fails and is not undone, goes back to the start
of a batch or drops everything. As long as neither of the last two happens, each constraint that
comes or goes is counted and no handle is given out a second time.

## Main definitions

* `State.Balanced`, `Solver.Balanced` — the books agree with each other
* `Solver.Orderly` — what holds of a solver between operations
* `Solver.Steady`, `Solver.issuedBy` — runs that rewind nothing, and the handles of a run

## Main results

* `State.Balanced.register`, `State.Balanced.hold`, `State.Balanced.unregister` — changes of the
  books
* `Solver.Balanced.posting` — a posting keeps the balance
* `Solver.Orderly.nodup_issuedBy`, `Solver.Orderly.size_run` — the handles and the counters of a run
* `Solver.run_balanced` — the books after a run from an empty solver
-/

namespace Cassowary

/-! ## Counts -/

namespace Table

variable {κ β : Type} [DecidableEq κ] {t : Table κ β} {k : κ} {b : β}

theorem size_insert (h : t.get? k = none) : (t.insert k b).size = t.size + 1 := by
  rw [size, entries_insert_of_notMem (get?_eq_none_iff.mp h), List.length_append]
  rfl

theorem size_erase (h : t.get? k = some b) : t.size = (t.erase k).size + 1 :=
  (perm_entries_erase h).length_eq

end Table

namespace State

variable {references : Table Key Nat}

theorem getD_foldl_refer (ks : List Key) (references : Table Key Nat) (k : Key) :
    ((ks.foldl refer references).get? k).getD 0 = (references.get? k).getD 0 + ks.count k := by
  induction ks generalizing references with
  | nil => rfl
  | cons k' ks ih =>
    rw [List.foldl_cons, ih, List.count_cons]
    by_cases hk : k = k'
    · subst hk
      rw [refer, Table.get?_alter_self, Option.getD_some, beq_self_eq_true, if_pos rfl]
      omega
    · rw [refer, Table.get?_alter_of_ne _ _ hk, if_neg (by simpa using Ne.symm hk), add_zero]

theorem getD_foldl_unrefer (ks : List Key) (references : Table Key Nat) (k : Key) :
    ((ks.foldl unrefer references).get? k).getD 0 = (references.get? k).getD 0 - ks.count k := by
  induction ks generalizing references with
  | nil => rfl
  | cons k' ks ih =>
    rw [List.foldl_cons, ih, List.count_cons]
    by_cases hk : k = k'
    · subst hk
      have hone : ((references.get? k).bind fun n => if n ≤ 1 then none else some (n - 1)).getD 0 =
          (references.get? k).getD 0 - 1 := by
        cases references.get? k with
        | none => rfl
        | some n =>
          dsimp only [Option.bind_some, Option.getD_some]
          split
          · rw [Option.getD_none]
            omega
          · rfl
      rw [unrefer, Table.get?_alter_self, hone, beq_self_eq_true, if_pos rfl]
      omega
    · rw [unrefer, Table.get?_alter_of_ne _ _ hk, if_neg (by simpa using Ne.symm hk), add_zero]

/-- A variable that nothing mentions is not counted. -/
def Positive (references : Table Key Nat) : Prop :=
  ∀ k n, references.get? k = some n → 0 < n

theorem Positive.alter (h : Positive references) {k : Key} {f : Option Nat → Option Nat}
    (hf : ∀ n, f (references.get? k) = some n → 0 < n) : Positive (references.alter k f) := by
  intro k' n hn
  by_cases hk : k' = k
  · rw [hk, Table.get?_alter_self] at hn
    exact hf n hn
  · rw [Table.get?_alter_of_ne _ _ hk] at hn
    exact h k' n hn

theorem Positive.foldl {f : Table Key Nat → Key → Table Key Nat} (h : Positive references)
    (hf : ∀ references k, Positive references → Positive (f references k)) (ks : List Key) :
    Positive (ks.foldl f references) := by
  induction ks generalizing references with
  | nil => exact h
  | cons k ks ih => exact ih (hf references k h)

theorem Positive.refer (h : Positive references) (k : Key) :
    Positive (State.refer references k) :=
  h.alter fun n hn => by
    rw [← Option.some_inj.mp hn]
    exact Nat.succ_pos _

theorem Positive.unrefer (h : Positive references) (k : Key) :
    Positive (State.unrefer references k) := by
  refine h.alter fun n hn => ?_
  obtain ⟨m, -, hm⟩ := Option.bind_eq_some_iff.mp hn
  split at hm
  · cases hm
  · cases hm
    omega

/-! ## The balance -/

variable {α : Type} [Scalar α] {s s' : State α} {h : Handle} {r : Record α}

/-- The books agree with each other. -/
structure Balanced (s : State α) : Prop where
  /-- A variable is counted once for each constraint that lists it. -/
  counted : ∀ k, (s.references.get? k).getD 0 =
    s.constraints.entries.countP fun e => k ∈ e.2.constraint.keys
  positive : Positive s.references
  listed : ∀ h r, s.constraints.get? h = some r → r.constraint.keys.Nodup
  /-- Different constraints share no symbol. -/
  disjoint : ∀ h r h' r', s.constraints.get? h = some r → s.constraints.get? h' = some r' →
    h ≠ h' → h.markers.Disjoint h'.markers
  given : ∀ h r, s.constraints.get? h = some r →
    ∀ k ∈ h.markers, k.index.toNat < s.tableau.nextId
  /-- An edit variable is held by a constraint that is there, with an error for each direction. -/
  edited : ∀ x e, s.edits.get? x = some e → e.handle.Fits .equal false ∧
    ∃ r, s.constraints.get? e.handle = some r ∧ r.strength.isRequired = false
  distinct : ∀ x e x' e', s.edits.get? x = some e → s.edits.get? x' = some e' →
    e.handle = e'.handle → x = x'

namespace Balanced

theorem of_empty (hconstraints : s.constraints = ∅) (hedits : s.edits = ∅)
    (hreferences : s.references = ∅) : s.Balanced := by
  have hnone : ∀ h r, s.constraints.get? h ≠ some r := fun h r hr => by
    rw [hconstraints] at hr
    cases hr
  have hnoedit : ∀ x e, s.edits.get? x ≠ some e := fun x e he => by
    rw [hedits] at he
    cases he
  refine ⟨fun k => by rw [hconstraints, hreferences]; rfl, fun k n hn => ?_,
    fun h r hr => absurd hr (hnone h r), fun h r _ _ hr => absurd hr (hnone h r),
    fun h r hr => absurd hr (hnone h r), fun x e he => absurd he (hnoedit x e),
    fun x e _ _ he => absurd he (hnoedit x e)⟩
  rw [hreferences] at hn
  cases hn

/-- Targets may move, edit variables may go, and symbols may be given out. -/
theorem of_retained (hs : s.Balanced) (hconstraints : s'.constraints = s.constraints)
    (hreferences : s'.references = s.references)
    (hedits : ∀ x e, s'.edits.get? x = some e →
      ∃ e', s.edits.get? x = some e' ∧ e'.handle = e.handle)
    (hid : s.tableau.nextId ≤ s'.tableau.nextId) : s'.Balanced where
  counted := by rw [hconstraints, hreferences]; exact hs.counted
  positive := by rw [hreferences]; exact hs.positive
  listed := by rw [hconstraints]; exact hs.listed
  disjoint := by rw [hconstraints]; exact hs.disjoint
  given h r hr k hk := (hs.given h r (hconstraints ▸ hr) k hk).trans_le hid
  edited x e he := by
    obtain ⟨e', he', hhandle⟩ := hedits x e he
    rw [hconstraints, ← hhandle]
    exact hs.edited x e' he'
  distinct x₁ e₁ x₂ e₂ he₁ he₂ heq := by
    obtain ⟨e₁', he₁', hhandle₁⟩ := hedits x₁ e₁ he₁
    obtain ⟨e₂', he₂', hhandle₂⟩ := hedits x₂ e₂ he₂
    exact hs.distinct x₁ e₁' x₂ e₂' he₁' he₂' (by rw [hhandle₁, hhandle₂, heq])

omit [Scalar α] in
/-- A constraint whose symbols are all new is not there. -/
theorem get?_of_disjoint
    (hnew : ∀ h' r', s.constraints.get? h' = some r' → h.markers.Disjoint h'.markers) :
    s.constraints.get? h = none := by
  rw [Option.eq_none_iff_forall_ne_some]
  intro r hr
  exact hnew h r hr List.mem_cons_self List.mem_cons_self

/-- A constraint comes with new symbols. -/
theorem register (hs : s.Balanced)
    (hnew : ∀ h' r', s.constraints.get? h' = some r' → h.markers.Disjoint h'.markers)
    (hgiven : ∀ k ∈ h.markers, k.index.toNat < s.tableau.nextId)
    (hlisted : r.constraint.keys.Nodup) : (s.register h r).Balanced := by
  have habsent := get?_of_disjoint hnew
  refine ⟨fun k => ?_, hs.positive.foldl (fun _ k h => h.refer k) _, fun h' r' hr' => ?_,
    fun h₁ r₁ h₂ r₂ hr₁ hr₂ hne => ?_, fun h' r' hr' => ?_, fun x e he => ?_, hs.distinct⟩
  · rw [State.register, getD_foldl_refer, hs.counted,
      Table.entries_insert_of_notMem (Table.get?_eq_none_iff.mp habsent), List.countP_append,
      List.countP_singleton, hlisted.count]
    simp only [decide_eq_true_eq]
  · rcases get?_register_cases hr' with ⟨-, rfl⟩ | hr'
    · exact hlisted
    · exact hs.listed h' r' hr'
  · rcases get?_register_cases hr₁ with ⟨rfl, -⟩ | hold₁ <;>
      rcases get?_register_cases hr₂ with ⟨rfl, -⟩ | hold₂
    · exact absurd rfl hne
    · exact hnew h₂ r₂ hold₂
    · exact (hnew h₁ r₁ hold₁).symm
    · exact hs.disjoint h₁ r₁ h₂ r₂ hold₁ hold₂ hne
  · rcases get?_register_cases hr' with ⟨rfl, -⟩ | hr'
    · exact hgiven
    · exact hs.given h' r' hr'
  · obtain ⟨hfits, r', hr', hsoft⟩ := hs.edited x e he
    have hne : e.handle ≠ h := fun heq => by
      rw [heq, habsent] at hr'
      cases hr'
    exact ⟨hfits, r', by rw [get?_register, if_neg hne, hr'], hsoft⟩

/-- A constraint that no edit variable is held by comes to hold one. -/
theorem hold (hs : s.Balanced) (hr : s.constraints.get? h = some r) (hfits : h.Fits .equal false)
    (hsoft : r.strength.isRequired = false)
    (hfree : ∀ x e, s.edits.get? x = some e → e.handle ≠ h) (x : Variable) (target : α) :
    ({ s with edits := s.edits.insert x ⟨h, target⟩ } : State α).Balanced := by
  have hcases : ∀ x' e, (s.edits.insert x ⟨h, target⟩).get? x' = some e →
      x' = x ∧ e = ⟨h, target⟩ ∨ s.edits.get? x' = some e := by
    intro x' e he
    rw [Table.get?_insert] at he
    split at he
    · next heq => exact .inl ⟨heq, (Option.some_inj.mp he).symm⟩
    · exact .inr he
  refine ⟨hs.counted, hs.positive, hs.listed, hs.disjoint, hs.given, fun x' e he => ?_,
    fun x₁ e₁ x₂ e₂ he₁ he₂ heq => ?_⟩
  · rcases hcases x' e he with ⟨-, rfl⟩ | he
    · exact ⟨hfits, r, hr, hsoft⟩
    · exact hs.edited x' e he
  · rcases hcases x₁ e₁ he₁ with ⟨rfl, rfl⟩ | hold₁ <;>
      rcases hcases x₂ e₂ he₂ with ⟨rfl, rfl⟩ | hold₂
    · rfl
    · exact absurd heq.symm (hfree x₂ e₂ hold₂)
    · exact absurd heq (hfree x₁ e₁ hold₁)
    · exact hs.distinct x₁ e₁ x₂ e₂ hold₁ hold₂ heq

/-- A constraint goes, and the edit variable with it that it holds. -/
theorem unregister (hs : s.Balanced) (hr : s.constraints.get? h = some r) :
    (s.unregister h).Balanced := by
  have hkept : ∀ h' r', (s.unregister h).constraints.get? h' = some r' →
      s.constraints.get? h' = some r' := fun _ _ hr' => (get?_of_unregister hr hr').2
  have hedit : ∀ x e, (s.unregister h).edits.get? x = some e → s.edits.get? x = some e :=
    fun x e he => ((get?_edits_unregister hr x e).mp he).1
  refine ⟨fun k => ?_, ?_, fun h' r' hr' => hs.listed h' r' (hkept h' r' hr'),
    fun h₁ r₁ h₂ r₂ hr₁ hr₂ => hs.disjoint h₁ r₁ h₂ r₂ (hkept _ _ hr₁) (hkept _ _ hr₂),
    fun h' r' hr' => ?_, fun x e he => ?_,
    fun x₁ e₁ x₂ e₂ he₁ he₂ => hs.distinct x₁ e₁ x₂ e₂ (hedit x₁ e₁ he₁) (hedit x₂ e₂ he₂)⟩
  · rw [unregister_eq hr]
    dsimp only
    rw [getD_foldl_unrefer, hs.counted, (Table.perm_entries_erase hr).countP_eq, List.countP_cons,
      (hs.listed h r hr).count]
    simp only [decide_eq_true_eq, Nat.add_sub_cancel]
  · rw [unregister_eq hr]
    exact hs.positive.foldl (fun _ k h => h.unrefer k) _
  · rw [unregister_eq hr]
    exact hs.given h' r' (hkept h' r' hr')
  · obtain ⟨he, hne⟩ := (get?_edits_unregister hr x e).mp he
    obtain ⟨hfits, r', hr', hsoft⟩ := hs.edited x e he
    exact ⟨hfits, r', by rw [get?_unregister hr, if_neg hne, hr'], hsoft⟩

end Balanced

end State

namespace Solver

variable {α : Type} [Scalar α] {config : Config α} {s s' : Solver α}

/-! ## The balance of a run -/

/-- The books agree with each other, and so did those that an open batch goes back to. -/
structure Balanced (s : Solver α) : Prop where
  state : s.state.Balanced
  snapshot : ∀ b state, s.batch = some b → b.snapshot = some state → state.Balanced

namespace Balanced

theorem retains (hs : s.Balanced) (hs' : s.Retains s') : s'.Balanced where
  state := hs.state.of_retained hs'.constraints hs'.references hs'.edits hs'.given
  snapshot b state hb hstate := (hs'.snapshot b state hb hstate).elim
    (fun hopen => hs.snapshot b state hopen hstate) fun heq => heq ▸ hs.state

end Balanced

/-- New symbols are those of no constraint that is there. -/
theorem Retains.disjoint {s₁ : Solver α} (hs₁ : s.Retains s₁) (hs : s.state.Balanced) {h : Handle}
    {n : Nat} (hbetween : h.Between s.state.tableau.nextId n) (h' : Handle) (r' : Record α)
    (hr' : s₁.state.constraints.get? h' = some r') : h.markers.Disjoint h'.markers := by
  intro k hk hk'
  rw [hs₁.constraints] at hr'
  exact absurd (hs.given h' r' hr' k hk') (not_lt.mpr (hbetween.fresh.le k hk))

/-- Whatever an operation does to the books, they stay balanced. -/
theorem Balanced.posting {issued : Option Handle} {rewinds : Bool} (hs : s.Balanced)
    (h : s.Posting issued rewinds s') : s'.Balanced := by
  cases h with
  | kept hs' => exact hs.retains hs'
  | @entered s₁ h c w edits hs₁ hfits hbetween hlisted hedits =>
    have hbalanced := hs.retains hs₁
    have hnew := hs₁.disjoint hs.state hbetween
    have hregister : (s₁.state.register h ⟨c, w⟩).Balanced :=
      hbalanced.state.register hnew hbetween.lt hlisted
    rcases hedits with rfl | ⟨x, target, hrelation, hsoft, rfl⟩
    · exact ⟨hregister, hbalanced.snapshot⟩
    · have hfree : ∀ x e, s₁.state.edits.get? x = some e → e.handle ≠ h := by
        rintro x e he rfl
        obtain ⟨-, r, hr, -⟩ := hbalanced.state.edited x e he
        rw [State.Balanced.get?_of_disjoint hnew] at hr
        cases hr
      rw [hrelation, hsoft] at hfits
      exact ⟨hregister.hold (State.get?_register _ _ _ _ |>.trans (if_pos rfl)) hfits hsoft hfree
        x target, hbalanced.snapshot⟩
  | @struck s₁ h r edits hs₁ hr hedits =>
    have hbalanced := hs.retains hs₁
    exact ⟨(hbalanced.state.unregister hr).of_retained rfl rfl
      (fun x e he => ⟨e, hedits x e he, rfl⟩) le_rfl, hbalanced.snapshot⟩
  | dropped => exact ⟨.of_empty rfl rfl rfl, fun _ _ hopen => by cases hopen⟩
  | restored hb hstate => exact ⟨hs.snapshot _ _ hb hstate, fun _ _ hopen => by cases hopen⟩

/-! ## The index and the counters -/

omit [Scalar α] in
theorem Retains.size (h : s.Retains s') :
    s'.state.constraints.size = s.state.constraints.size := by rw [h.constraints]

/-- Unless everything goes at once, each constraint that comes is counted, and each that goes. -/
theorem Posting.size {issued : Option Handle} (h : s.Posting issued false s') (hs : s.Balanced) :
    s'.state.constraints.size + s'.removals + s.insertions =
      s.state.constraints.size + s.removals + s'.insertions := by
  cases h with
  | kept hs' => rw [hs'.size, hs'.removals, hs'.insertions]
  | @entered s₁ h c w edits hs₁ _ hbetween _ _ =>
    have habsent := State.Balanced.get?_of_disjoint (hs₁.disjoint hs.state hbetween)
    have hsize : (s₁.state.register h ⟨c, w⟩).constraints.size = s₁.state.constraints.size + 1 :=
      Table.size_insert habsent
    dsimp only
    rw [hsize, hs₁.size, hs₁.removals, hs₁.insertions]
    omega
  | @struck s₁ h r edits hs₁ hr _ =>
    have hsize := Table.size_erase hr
    dsimp only
    rw [State.unregister_eq hr, hs₁.removals, hs₁.insertions, ← hs₁.size]
    dsimp only
    omega

/-! ## Runs -/

/-- What holds of a solver between operations: nothing is in progress, the basis is kept apart, and
the books are balanced. -/
structure Orderly (config : Config α) (s : Solver α) : Prop where
  rest : s.AtRest config
  apart : s.Apart
  balanced : s.Balanced

namespace Orderly

variable {o : Operation α} (hs : s.Orderly config) (ho : o.Reduced)
include hs ho

theorem posting : s.Posting (s.issued o) (s.rewinds o) (s.step o).2 :=
  posting_step hs.rest hs.apart ho

theorem step : (s.step o).2.Orderly config where
  rest := (keeps_perform o).outcome hs.rest
  apart := (hs.apart.ensures_perform hs.rest ho.overLayout).after
  balanced := hs.balanced.posting (posting_step hs.rest hs.apart ho)

end Orderly

theorem orderly_ofConfig (config : Config α) : (ofConfig config).Orderly config where
  rest := atRest_ofConfig config
  apart := ⟨State.apart_of_empty (Tableau.separated_empty _ _) rfl rfl,
    fun _ _ hopen => by cases hopen⟩
  balanced := ⟨.of_empty rfl rfl rfl, fun _ _ hopen => by cases hopen⟩

theorem Orderly.run {os : List (Operation α)} (hs : s.Orderly config) (hos : ∀ o ∈ os, o.Reduced) :
    (s.run os).Orderly config := by
  induction os generalizing s with
  | nil => exact hs
  | cons o os ih =>
    obtain ⟨ho, hos⟩ := List.forall_mem_cons.mp hos
    exact ih (hs.step ho) hos

/-- No operation of a run rewinds the index. -/
def Steady (s : Solver α) : List (Operation α) → Prop
  | [] => True
  | o :: os => s.rewinds o = false ∧ Steady (s.step o).2 os

instance decidableSteady (s : Solver α) : (os : List (Operation α)) → Decidable (s.Steady os)
  | [] => isTrue trivial
  | o :: os =>
    have := decidableSteady (s.step o).2 os
    inferInstanceAs (Decidable (_ ∧ _))

/-- The handles that the operations of a run give out, in their order. -/
def issuedBy (s : Solver α) : List (Operation α) → List Handle
  | [] => []
  | o :: os => (s.issued o).toList ++ issuedBy (s.step o).2 os

theorem Orderly.nodup_issuedBy {os : List (Operation α)} (hs : s.Orderly config)
    (hos : ∀ o ∈ os, o.Reduced) (hsteady : s.Steady os) :
    (s.issuedBy os).Nodup ∧
      ∀ h ∈ s.issuedBy os, s.state.tableau.nextId ≤ h.marker.index.toNat := by
  induction os generalizing s with
  | nil => exact ⟨.nil, fun _ hmem => absurd hmem List.not_mem_nil⟩
  | cons o os ih =>
    obtain ⟨ho, hos⟩ := List.forall_mem_cons.mp hos
    obtain ⟨hrewinds, hsteady⟩ := hsteady
    have hposting := hs.posting ho
    rw [hrewinds] at hposting
    obtain ⟨hid, hbetween⟩ := hposting.between
    obtain ⟨hnodup, hle⟩ := ih (hs.step ho) hos hsteady
    unfold issuedBy
    cases hissued : s.issued o with
    | none => exact ⟨hnodup, fun h hmem => hid.trans (hle h hmem)⟩
    | some h =>
      have hh := hbetween h hissued
      have hlt := hh.lt _ List.mem_cons_self
      refine ⟨List.nodup_cons.mpr ⟨fun hmem => ?_, hnodup⟩, fun h' hmem => ?_⟩
      · exact absurd (hle h hmem) (not_le.mpr hlt)
      · rcases List.mem_cons.mp hmem with rfl | hmem
        · exact hh.fresh.le _ List.mem_cons_self
        · exact hid.trans (hle h' hmem)

theorem Orderly.size_run {os : List (Operation α)} (hs : s.Orderly config)
    (hos : ∀ o ∈ os, o.Reduced) (hsteady : s.Steady os) :
    (s.run os).state.constraints.size + (s.run os).removals + s.insertions =
      s.state.constraints.size + s.removals + (s.run os).insertions := by
  induction os generalizing s with
  | nil => rfl
  | cons o os ih =>
    obtain ⟨ho, hos⟩ := List.forall_mem_cons.mp hos
    have hposting := hs.posting ho
    rw [hsteady.1] at hposting
    have hone := hposting.size hs.balanced
    have hrest := ih (hs.step ho) hos hsteady.2
    show ((s.step o).2.run os).state.constraints.size + ((s.step o).2.run os).removals + _ =
      _ + ((s.step o).2.run os).insertions
    omega

/-- Whatever the arithmetic and the configuration are, the books of a solver agree with each other
after every run: failed, undone, cleared or poisoned. As long as nothing is dropped as a whole and
no batch goes back to its start, the constraints are those inserted less those removed, and no
handle is given out twice, to a caller or to an edit variable. -/
theorem run_balanced {os : List (Operation α)} (hos : ∀ o ∈ os, o.Reduced) :
    ((ofConfig config).run os).Balanced ∧
      ((ofConfig config).Steady os →
        ((ofConfig config).run os).state.constraints.size + ((ofConfig config).run os).removals =
          ((ofConfig config).run os).insertions ∧
        ((ofConfig config).issuedBy os).Nodup) := by
  have hstart := orderly_ofConfig config
  refine ⟨(hstart.run hos).balanced, fun hsteady => ⟨?_, (hstart.nodup_issuedBy hos hsteady).1⟩⟩
  have hsize := hstart.size_run hos hsteady
  have hnone : (ofConfig config).state.constraints.size = 0 := rfl
  have hzero : (ofConfig config).insertions = 0 ∧ (ofConfig config).removals = 0 := ⟨rfl, rfl⟩
  omega

/-- A variable is bounded and edited, and in a batch the bound goes. -/
def unbounded : List (Operation Rat) :=
  [.insert (.ofFormulas (.var (.external 0)) .lessOrEqual (.number 5)) .required,
    .startEdit (.external 0) .strong, .suggest (.external 0) 7, .openBatch,
    .remove ⟨.ofIndex .slack false 0, none⟩]

theorem run_balanced_unbounded :
    (ofConfig ⟨0, true, 100⟩).issuedBy unbounded =
      [⟨.ofIndex .slack false 0, none⟩,
        ⟨.ofIndex .error false 1, some (.ofIndex .error false 2)⟩] ∧
    ((ofConfig ⟨0, true, 100⟩).run unbounded).Balanced ∧
    ((ofConfig ⟨0, true, 100⟩).run unbounded).state.constraints.size +
      ((ofConfig ⟨0, true, 100⟩).run unbounded).removals = 2 := by
  have hreduced : ∀ o ∈ unbounded, o.Reduced := by
    intro o ho
    simp only [unbounded, List.mem_cons, List.not_mem_nil, or_false] at ho
    rcases ho with rfl | rfl | rfl | rfl | rfl
    · exact ⟨_, _, _, rfl⟩
    all_goals trivial
  have hsteady : (ofConfig ⟨0, true, 100⟩).Steady unbounded := by decide +kernel
  have hrun := @run_balanced Rat _ ⟨0, true, 100⟩ unbounded hreduced
  exact ⟨by decide +kernel, hrun.1, (hrun.2 hsteady).1.trans (by decide +kernel)⟩

end Solver

end Cassowary
