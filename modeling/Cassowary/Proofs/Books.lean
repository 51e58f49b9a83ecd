import Cassowary.Proofs.Removal
import Cassowary.Proofs.Suggestion

/-!
# The books of a solver

The books say which equations a tableau should represent, and with which cost. They are tidy if the
symbols of each constraint fit it and belong to no other one, and if every edit variable is held by
a constraint of its own.

Each way of changing the books changes the equations and the cost by those of one constraint.

## Main definitions

* `State.Tidy` — what the books keep
* `State.charge` — what the symbols of all constraints cost

## Main results

* `State.equations_register`, `State.Tidy.register` — a constraint that comes
* `State.Tidy.splits`, `State.Tidy.unregister` — a constraint that goes
* `State.Tidy.moves`, `State.Tidy.retarget`, `State.Tidy.current_retarget` — a target that moves
-/

namespace Cassowary

/-! ## Reduced constraints -/

namespace Constraint

variable {α : Type} [Scalar α]

theorem overLayout_ordered (sums : Table Key α) :
    ∀ t ∈ ordered sums, t.var.unrestricted = true := by
  intro t ht
  obtain ⟨kind, hkind, ht⟩ := List.mem_flatMap.mp ht
  obtain ⟨e, he, rfl⟩ := List.mem_map.mp ht
  have heq : e.1.kind = kind := by simpa using (of_decide_eq_true (List.mem_filter.mp he).2).1
  rw [Key.unrestricted, heq]
  simp only [List.mem_cons, List.not_mem_nil, or_false] at hkind
  rcases hkind with rfl | rfl | rfl <;> rfl

/-- A reduced constraint mentions layout variables only. -/
theorem overLayout_reduce (lhs : LinearForm α) (comparison : Comparison) (rhs : LinearForm α) :
    (reduce lhs comparison rhs).OverLayout := by
  have hterms := overLayout_ordered (merged (gathered lhs rhs))
  have hneg : ∀ t ∈ (ordered (merged (gathered lhs rhs))).map (-·), t.var.unrestricted = true := by
    intro t ht
    obtain ⟨t', ht', rfl⟩ := List.mem_map.mp ht
    exact hterms t' ht'
  cases comparison <;> first | exact hterms | exact hneg

end Constraint

namespace Variable

theorem overLayout_heldAt {α : Type} [Scalar α] (x : Variable) (target : α) :
    (x.heldAt target).OverLayout :=
  Constraint.overLayout_reduce _ _ _

theorem relation_heldAt (x : Variable) (target : Rat) : (x.heldAt target).relation = .equal := rfl

theorem keys_heldAt (x : Variable) (target target' : Rat) :
    (x.heldAt target).keys = (x.heldAt target').keys := rfl

/-- The target of a variable stands in the constant alone. -/
theorem value_heldAt (x : Variable) (target target' : Rat) (v : Assignment Rat) :
    (x.heldAt target').value v = (x.heldAt target).value v - (target' - target) := by
  have hterms : (x.heldAt target').terms = (x.heldAt target).terms := rfl
  have hconstant :
      (x.heldAt target').constant = (x.heldAt target).constant - (target' - target) := by
    unfold heldAt Constraint.ofFormulas Constraint.reduce Constraint.gatheredConstant
    simp only [Formula.linear, LinearForm.ofTerm, LinearForm.ofNumber, Constraint.gathered,
      List.map_nil, List.append_nil]
    by_cases hx : (Term.unit (α := Rat) x).var.key.kind = .constant
    · simp only [List.filter_cons, hx, decide_true, if_true, List.filter_nil, List.foldl_cons,
        List.foldl_nil]
      ring
    · simp only [List.filter_cons, hx, decide_false, Bool.false_eq_true, if_false, List.filter_nil,
        List.foldl_nil]
      ring
  rw [Constraint.value, Constraint.value, hterms, hconstant]
  ring

end Variable

/-! ## Sums over tables -/

namespace Table

variable {κ β : Type} [DecidableEq κ]

/-- A sum over a table is the sum without an entry and that entry. -/
theorem sum_entries_erase {t : Table κ β} {k : κ} {b : β} (h : t.get? k = some b)
    (f : κ × β → Rat) :
    (t.entries.map f).sum = ((t.erase k).entries.map f).sum + f (k, b) := by
  rw [((perm_entries_erase h).map f).sum_eq, List.map_cons, List.sum_cons, add_comm]

end Table

namespace State

/-! ## Looking up in changed books -/

section Lookups

variable {α : Type} {s : State α} {h h' : Handle} {r r' : Record α}

theorem get?_register (s : State α) (h h' : Handle) (r : Record α) :
    (s.register h r).constraints.get? h' = if h' = h then some r else s.constraints.get? h' :=
  Table.get?_insert _ _ _ _

theorem get?_register_cases (hr' : (s.register h r).constraints.get? h' = some r') :
    h' = h ∧ r' = r ∨ s.constraints.get? h' = some r' := by
  rw [get?_register] at hr'
  split at hr'
  · next heq => exact .inl ⟨heq, (Option.some_inj.mp hr').symm⟩
  · exact .inr hr'

theorem unregister_eq (hr : s.constraints.get? h = some r) :
    s.unregister h = { s with
      constraints := s.constraints.erase h
      references := r.constraint.keys.foldl unrefer s.references
      edits := s.edits.filter fun _ e => e.handle ≠ h } := by
  unfold unregister
  rw [hr]

theorem get?_unregister (hr : s.constraints.get? h = some r) (h' : Handle) :
    (s.unregister h).constraints.get? h' = if h' = h then none else s.constraints.get? h' := by
  rw [unregister_eq hr]
  exact Table.get?_erase _ _ _

/-- Books from which a constraint is struck hold other constraints only, which they held before. -/
theorem get?_of_unregister (hr : s.constraints.get? h = some r)
    (hr' : (s.unregister h).constraints.get? h' = some r') :
    h' ≠ h ∧ s.constraints.get? h' = some r' := by
  rw [get?_unregister hr] at hr'
  split at hr'
  · cases hr'
  · next hne => exact ⟨hne, hr'⟩

theorem get?_edits_unregister (hr : s.constraints.get? h = some r) (x : Variable) (e : Edit α) :
    (s.unregister h).edits.get? x = some e ↔ s.edits.get? x = some e ∧ e.handle ≠ h := by
  rw [unregister_eq hr, Table.get?_filter, Option.filter_eq_some_iff, decide_eq_true_eq]

end Lookups

variable {s s' : State Rat} {h h' : Handle} {r r' : Record Rat} {x : Variable} {e : Edit Rat}
  {k : Key} {v : Assignment Rat} {t : Tableau Rat}

/-! ## Tidy books -/

/-- The symbols of each constraint fit it and belong to no other one, constraints mention layout
variables only, and each edit variable is held by a constraint of its own that may be violated. -/
structure Tidy (s : State Rat) : Prop where
  fits : ∀ h r, s.constraints.get? h = some r →
    h.Fits r.constraint.relation r.strength.isRequired
  layout : ∀ h r, s.constraints.get? h = some r → r.constraint.OverLayout
  nodup : ∀ h r, s.constraints.get? h = some r → h.markers.Nodup
  apart : ∀ h r h' r' k, s.constraints.get? h = some r → s.constraints.get? h' = some r' →
    k ∈ h.markers → k ∈ h'.markers → h = h'
  edit : ∀ x e, s.edits.get? x = some e → ∃ r, s.constraints.get? e.handle = some r ∧
    (∃ target, r.constraint = x.heldAt target) ∧ r.strength.isRequired = false
  edit_inj : ∀ x e x' e', s.edits.get? x = some e → s.edits.get? x' = some e' →
    e.handle = e'.handle → x = x'

/-- What the symbols of the constraints cost. -/
def charge (s : State Rat) (v : Assignment Rat) : Rat :=
  (s.constraints.entries.map fun e => e.1.price e.2.strength v).sum

/-! ## What the books depend on -/

theorem Tidy.of_eq (hs : s.Tidy) (hconstraints : s'.constraints = s.constraints)
    (hedits : s'.edits = s.edits) : s'.Tidy where
  fits := by rw [hconstraints]; exact hs.fits
  layout := by rw [hconstraints]; exact hs.layout
  nodup := by rw [hconstraints]; exact hs.nodup
  apart := by rw [hconstraints]; exact hs.apart
  edit := by rw [hconstraints, hedits]; exact hs.edit
  edit_inj := by rw [hedits]; exact hs.edit_inj

theorem equations_of_eq (hconstraints : s'.constraints = s.constraints)
    (hedits : s'.edits = s.edits) (v : Assignment Rat) : s'.Equations v ↔ s.Equations v := by
  unfold Equations current
  rw [hconstraints, hedits]

theorem charge_of_eq (hconstraints : s'.constraints = s.constraints) (v : Assignment Rat) :
    s'.charge v = s.charge v := by
  unfold charge
  rw [hconstraints]

theorem feasible_of_eq (hconstraints : s'.constraints = s.constraints)
    (hedits : s'.edits = s.edits) (v : Assignment Rat) : s'.Feasible v ↔ s.Feasible v := by
  unfold Feasible held current
  rw [hconstraints, hedits]

/-! ## What a constraint says now -/

theorem current_cases (s : State Rat) (h : Handle) (r : Record Rat) :
    (∃ x e, s.edits.get? x = some e ∧ e.handle = h ∧ s.current h r = x.heldAt e.target) ∨
      (∀ x e, s.edits.get? x = some e → e.handle ≠ h) ∧ s.current h r = r.constraint := by
  unfold current
  cases hfind : s.edits.entries.find? (·.2.handle = h) with
  | some found =>
    obtain ⟨x, e⟩ := found
    have hhandle := List.find?_some hfind
    exact .inl ⟨x, e, Table.get?_eq_some_iff.mpr (List.mem_of_find?_eq_some hfind),
      of_decide_eq_true hhandle, rfl⟩
  | none =>
    refine .inr ⟨fun x e he heq => ?_, rfl⟩
    have hnot := List.find?_eq_none.mp hfind _ (Table.get?_eq_some_iff.mp he)
    exact hnot (decide_eq_true heq)

theorem Tidy.current_of_edit (hs : s.Tidy) (he : s.edits.get? x = some e) (r : Record Rat) :
    s.current e.handle r = x.heldAt e.target := by
  rcases s.current_cases e.handle r with ⟨x', e', he', hhandle, hcurrent⟩ | ⟨hnone, -⟩
  · have hx := hs.edit_inj _ _ _ _ he' he hhandle
    rw [hx, he] at he'
    cases he'
    rw [hcurrent, hx]
  · exact absurd rfl (hnone x e he)

theorem current_of_forall_ne (hnone : ∀ x e, s.edits.get? x = some e → e.handle ≠ h) :
    s.current h r = r.constraint := by
  rcases s.current_cases h r with ⟨x, e, he, hhandle, -⟩ | ⟨-, hcurrent⟩
  · exact absurd hhandle (hnone x e he)
  · exact hcurrent

/-- What a constraint says depends only on the edit variable that it holds. -/
theorem Tidy.current_congr (hs' : s'.Tidy)
    (hedits : ∀ x e, e.handle = h → (s.edits.get? x = some e ↔ s'.edits.get? x = some e)) :
    s'.current h r = s.current h r := by
  rcases s.current_cases h r with ⟨x, e, he, rfl, hcurrent⟩ | ⟨hnone, hcurrent⟩
  · rw [hcurrent, hs'.current_of_edit ((hedits x e rfl).mp he)]
  · rw [hcurrent]
    exact current_of_forall_ne fun x e he hhandle =>
      hnone x e ((hedits x e hhandle).mpr he) hhandle

theorem Tidy.overLayout_current (hs : s.Tidy) (hr : s.constraints.get? h = some r) :
    (s.current h r).OverLayout := by
  rcases s.current_cases h r with ⟨x, e, -, -, hcurrent⟩ | ⟨-, hcurrent⟩
  · rw [hcurrent]
    exact x.overLayout_heldAt e.target
  · rw [hcurrent]
    exact hs.layout h r hr

theorem Tidy.relation_current (hs : s.Tidy) (hr : s.constraints.get? h = some r) :
    (s.current h r).relation = r.constraint.relation := by
  rcases s.current_cases h r with ⟨x, e, he, rfl, hcurrent⟩ | ⟨-, hcurrent⟩
  · obtain ⟨r', hr', ⟨target, hheld⟩, -⟩ := hs.edit x e he
    rw [hr] at hr'
    cases hr'
    rw [hcurrent, hheld, x.relation_heldAt, x.relation_heldAt]
  · rw [hcurrent]

/-- A target that moves brings in no variable. -/
theorem Tidy.keys_current (hs : s.Tidy) (hr : s.constraints.get? h = some r) :
    (s.current h r).keys = r.constraint.keys := by
  rcases s.current_cases h r with ⟨x, e, he, rfl, hcurrent⟩ | ⟨-, hcurrent⟩
  · obtain ⟨r', hr', ⟨target, hheld⟩, -⟩ := hs.edit x e he
    rw [hr] at hr'
    cases hr'
    rw [hcurrent, hheld, x.keys_heldAt e.target target]
  · rw [hcurrent]

/-! ## Equations and charges -/

theorem equations_iff : s.Equations v ↔
    ∀ h r, s.constraints.get? h = some r → (s.current h r).equation h v = 0 := by
  simp only [Equations, Table.get?_eq_some_iff, Prod.forall]
  exact Iff.rfl

/-- The equations depend on no symbols but those of the constraints. -/
theorem Tidy.equations_ignores (hs : s.Tidy) (hk : k.unrestricted = false)
    (hmem : ∀ h r, s.constraints.get? h = some r → k ∉ h.markers) : Ignores s.Equations k := by
  intro v x hv
  rw [equations_iff] at hv ⊢
  intro h r hr
  rw [Handle.equation_ignores (hs.overLayout_current hr) hk (hmem h r hr), zero_mul, add_zero,
    hv h r hr]

theorem charge_ignores (hmem : ∀ h r, s.constraints.get? h = some r → k ∉ h.markers) :
    CostIgnores s.charge k := by
  intro v x
  refine congrArg List.sum (List.map_congr_left fun e he => ?_)
  exact Handle.price_ignores (hmem e.1 e.2 (Table.get?_eq_some_iff.mpr he)) v x

theorem Tidy.charge_nonneg (hs : s.Tidy)
    (hpriced : ∀ h r, s.constraints.get? h = some r → 0 ≤ r.strength.value) (hv : v.Nonnegative) :
    0 ≤ s.charge v := by
  apply List.sum_nonneg
  intro y hy
  obtain ⟨e, he, rfl⟩ := List.mem_map.mp hy
  have hr := Table.get?_eq_some_iff.mpr he
  exact Handle.price_nonneg (fun _ => (hs.fits _ _ hr).unrestricted) (hpriced _ _ hr) hv

/-! ## A constraint that comes -/

/-- No edit variable is held by a constraint that is not there. -/
theorem Tidy.edit_ne (hs : s.Tidy) (hnew : s.constraints.get? h = none) (x : Variable)
    (e : Edit Rat) (he : s.edits.get? x = some e) : e.handle ≠ h := by
  rintro rfl
  obtain ⟨r, hr, -⟩ := hs.edit x e he
  rw [hnew] at hr
  cases hr

theorem Tidy.equations_register (hs : s.Tidy) (hnew : s.constraints.get? h = none) :
    (s.register h r).Equations v ↔ s.Equations v ∧ r.constraint.equation h v = 0 := by
  have hcurrent : (s.register h r).current h r = r.constraint :=
    current_of_forall_ne fun x e he => hs.edit_ne hnew x e he
  rw [equations_iff, equations_iff]
  constructor
  · intro hv
    refine ⟨fun h' r' hr' => hv h' r' ?_, ?_⟩
    · have hne : h' ≠ h := by
        rintro rfl
        rw [hnew] at hr'
        cases hr'
      rw [get?_register, if_neg hne, hr']
    · rw [← hcurrent]
      exact hv h r (by rw [get?_register, if_pos rfl])
  · rintro ⟨hv, hh⟩ h' r' hr'
    rcases get?_register_cases hr' with ⟨rfl, rfl⟩ | hr'
    · rw [hcurrent, hh]
    · exact hv h' r' hr'

theorem charge_register (hnew : s.constraints.get? h = none) :
    (s.register h r).charge v = s.charge v + h.price r.strength v := by
  unfold charge register
  rw [Table.entries_insert_of_notMem (Table.get?_eq_none_iff.mp hnew), List.map_append,
    List.sum_append, List.map_cons, List.map_nil, List.sum_cons, List.sum_nil, add_zero]

/-- Books stay tidy when a constraint with symbols of its own comes. -/
theorem Tidy.register (hs : s.Tidy) (hnew : s.constraints.get? h = none)
    (hfits : h.Fits r.constraint.relation r.strength.isRequired) (hlayout : r.constraint.OverLayout)
    (hnodup : h.markers.Nodup)
    (hapart : ∀ h' r' k, s.constraints.get? h' = some r' → k ∈ h.markers → k ∉ h'.markers) :
    (s.register h r).Tidy where
  fits h' r' hr' := by
    rcases get?_register_cases hr' with ⟨rfl, rfl⟩ | hr'
    · exact hfits
    · exact hs.fits h' r' hr'
  layout h' r' hr' := by
    rcases get?_register_cases hr' with ⟨rfl, rfl⟩ | hr'
    · exact hlayout
    · exact hs.layout h' r' hr'
  nodup h' r' hr' := by
    rcases get?_register_cases hr' with ⟨rfl, -⟩ | hr'
    · exact hnodup
    · exact hs.nodup h' r' hr'
  apart h₁ r₁ h₂ r₂ k hr₁ hr₂ hk₁ hk₂ := by
    rcases get?_register_cases hr₁ with ⟨rfl, -⟩ | hold₁ <;>
      rcases get?_register_cases hr₂ with ⟨rfl, -⟩ | hold₂
    · rfl
    · exact absurd hk₂ (hapart h₂ r₂ k hold₂ hk₁)
    · exact absurd hk₁ (hapart h₁ r₁ k hold₁ hk₂)
    · exact hs.apart h₁ r₁ h₂ r₂ k hold₁ hold₂ hk₁ hk₂
  edit x e he := by
    obtain ⟨r', hr', hsoft⟩ := hs.edit x e he
    exact ⟨r', by rw [get?_register, if_neg (hs.edit_ne hnew x e he), hr'], hsoft⟩
  edit_inj := hs.edit_inj

/-! ## A constraint that goes -/

/-- Books stay tidy when a constraint goes, and the edit variable with it that it holds. -/
theorem Tidy.unregister (hs : s.Tidy) (hr : s.constraints.get? h = some r) :
    (s.unregister h).Tidy := by
  have hkept : ∀ h' r', (s.unregister h).constraints.get? h' = some r' →
      s.constraints.get? h' = some r' := fun _ _ hr' => (get?_of_unregister hr hr').2
  refine ⟨fun h' r' hr' => hs.fits h' r' (hkept h' r' hr'),
    fun h' r' hr' => hs.layout h' r' (hkept h' r' hr'),
    fun h' r' hr' => hs.nodup h' r' (hkept h' r' hr'),
    fun h₁ r₁ h₂ r₂ k hr₁ hr₂ => hs.apart h₁ r₁ h₂ r₂ k (hkept _ _ hr₁) (hkept _ _ hr₂),
    fun x e he => ?_, fun x e x' e' he he' => ?_⟩
  · obtain ⟨he, hne⟩ := (get?_edits_unregister hr x e).mp he
    obtain ⟨r', hr', hsoft⟩ := hs.edit x e he
    exact ⟨r', by rw [get?_unregister hr, if_neg hne, hr'], hsoft⟩
  · exact hs.edit_inj x e x' e' ((get?_edits_unregister hr x e).mp he).1
      ((get?_edits_unregister hr x' e').mp he').1

theorem Tidy.equations_unregister (hs : s.Tidy) (hr : s.constraints.get? h = some r) :
    s.Equations v ↔ (s.unregister h).Equations v ∧ (s.current h r).equation h v = 0 := by
  have hcurrent : ∀ h' r', h' ≠ h → (s.unregister h).current h' r' = s.current h' r' :=
    fun h' r' hne => (hs.unregister hr).current_congr fun x e hhandle => by
      rw [get?_edits_unregister hr, hhandle, and_iff_left hne]
  rw [equations_iff, equations_iff]
  constructor
  · refine fun hv => ⟨fun h' r' hr' => ?_, hv h r hr⟩
    obtain ⟨hne, hr'⟩ := get?_of_unregister hr hr'
    rw [hcurrent h' r' hne]
    exact hv h' r' hr'
  · rintro ⟨hv, hh⟩ h' r' hr'
    by_cases hne : h' = h
    · rw [hne, hr] at hr'
      cases hr'
      rw [hne, hh]
    · rw [← hcurrent h' r' hne]
      exact hv h' r' (by rw [get?_unregister hr, if_neg hne, hr'])

theorem charge_unregister (hr : s.constraints.get? h = some r) (v : Assignment Rat) :
    s.charge v = (s.unregister h).charge v + h.price r.strength v := by
  rw [unregister_eq hr]
  exact Table.sum_entries_erase hr fun e => e.1.price e.2.strength v

/-- A constraint that goes stands beside the others: its symbols occur in its own equation only. -/
theorem Tidy.splits (hs : s.Tidy) (hr : s.constraints.get? h = some r) :
    h.Splits s.Equations (s.unregister h).Equations (s.unregister h).charge
      ((s.current h r).equation h) := by
  have hfits := hs.fits h r hr
  have hmarker : ∀ h' r', (s.unregister h).constraints.get? h' = some r' → h.marker ∉ h'.markers :=
    fun h' r' hr' hmem => (get?_of_unregister hr hr').1
      (hs.apart h' r' h r h.marker (get?_of_unregister hr hr').2 hr hmem List.mem_cons_self)
  refine ⟨fun v => hs.equations_unregister hr,
    (hs.unregister hr).equations_ignores (hfits.unrestricted List.mem_cons_self) hmarker,
    Handle.equation_marker (hs.overLayout_current hr) hfits (hs.nodup h r hr),
    fun k hother => Handle.equation_other (hs.overLayout_current hr) hfits (hs.nodup h r hr) hother,
    fun v w hsame => ?_, ⟨_, _, hfits⟩⟩
  refine congrArg List.sum (List.map_congr_left fun e he => ?_)
  have hr' := Table.get?_eq_some_iff.mpr he
  refine Handle.price_congr fun k hmem => hsame k ?_ ?_
  · exact ((hs.unregister hr).fits _ _ hr').unrestricted hmem
  · rintro rfl
    exact hmarker _ _ hr' hmem

/-! ## Edit variables -/

/-- The books with a variable that a constraint holds to a target. -/
def hold (s : State Rat) (x : Variable) (h : Handle) (target : Rat) : State Rat :=
  { s with edits := s.edits.insert x ⟨h, target⟩ }

theorem get?_hold (s : State Rat) (x : Variable) (h : Handle) (target : Rat) (x' : Variable) :
    (s.hold x h target).edits.get? x' = if x' = x then some ⟨h, target⟩ else s.edits.get? x' :=
  Table.get?_insert _ _ x' _

theorem get?_hold_cases {target : Rat} {x' : Variable}
    (he : (s.hold x h target).edits.get? x' = some e) :
    x' = x ∧ e = ⟨h, target⟩ ∨ s.edits.get? x' = some e := by
  rw [get?_hold] at he
  split at he
  · next heq => exact .inl ⟨heq, (Option.some_inj.mp he).symm⟩
  · exact .inr he

/-- Books stay tidy when a variable becomes an edit variable. -/
theorem Tidy.hold {target : Rat} (hs : s.Tidy) (hr : s.constraints.get? h = some r)
    (hheld : r.constraint = x.heldAt target) (hsoft : r.strength.isRequired = false)
    (hfree : ∀ x e, s.edits.get? x = some e → e.handle ≠ h) : (s.hold x h target).Tidy := by
  refine ⟨hs.fits, hs.layout, hs.nodup, hs.apart, fun x' e he => ?_,
    fun x₁ e₁ x₂ e₂ he₁ he₂ heq => ?_⟩
  · rcases get?_hold_cases he with ⟨rfl, rfl⟩ | he
    · exact ⟨r, hr, ⟨target, hheld⟩, hsoft⟩
    · exact hs.edit x' e he
  · rcases get?_hold_cases he₁ with ⟨rfl, rfl⟩ | hold₁ <;>
      rcases get?_hold_cases he₂ with ⟨rfl, rfl⟩ | hold₂
    · rfl
    · exact absurd heq.symm (hfree x₂ e₂ hold₂)
    · exact absurd heq (hfree x₁ e₁ hold₁)
    · exact hs.edit_inj x₁ e₁ x₂ e₂ hold₁ hold₂ heq

/-- The target is what the constraint says, so the books say the same. -/
theorem Tidy.current_hold {target : Rat} (htidy : (s.hold x h target).Tidy)
    (hr : s.constraints.get? h = some r) (hheld : r.constraint = x.heldAt target)
    (hx : s.edits.get? x = none) (hfree : ∀ x e, s.edits.get? x = some e → e.handle ≠ h)
    (hr' : s.constraints.get? h' = some r') :
    (s.hold x h target).current h' r' = s.current h' r' := by
  by_cases hne : h' = h
  · subst hne
    have hedit : (s.hold x h' target).edits.get? x = some ⟨h', target⟩ :=
      (get?_hold s x h' target x).trans (if_pos rfl)
    rw [htidy.current_of_edit hedit, current_of_forall_ne hfree,
      Option.some_inj.mp (hr'.symm.trans hr), hheld]
  · apply htidy.current_congr
    intro x' e hhandle
    rw [get?_hold]
    by_cases hx' : x' = x
    · rw [if_pos hx', hx', hx]
      constructor
      · rintro ⟨⟩
      · rintro ⟨⟩
        exact absurd hhandle.symm hne
    · rw [if_neg hx']

theorem Tidy.equations_hold {target : Rat} (htidy : (s.hold x h target).Tidy)
    (hr : s.constraints.get? h = some r) (hheld : r.constraint = x.heldAt target)
    (hx : s.edits.get? x = none) (hfree : ∀ x e, s.edits.get? x = some e → e.handle ≠ h) :
    (s.hold x h target).Equations v ↔ s.Equations v := by
  rw [equations_iff, equations_iff]
  refine forall_congr' fun h' => forall_congr' fun r' => imp_congr_right fun hr' => ?_
  rw [htidy.current_hold hr hheld hx hfree hr']

/-- The books with another target for an edit variable. -/
def retarget (s : State Rat) (x : Variable) (target : Rat) : State Rat :=
  { s with edits := s.edits.alter x fun e => e.map ({ · with target := target }) }

theorem get?_retarget (s : State Rat) (x : Variable) (target : Rat) (x' : Variable) :
    (s.retarget x target).edits.get? x' =
      if x' = x then (s.edits.get? x).map ({ · with target := target }) else s.edits.get? x' := by
  unfold retarget
  split
  · next heq => rw [heq, Table.get?_alter_self]
  · next hne => rw [Table.get?_alter_of_ne _ _ hne]

/-- Books stay tidy when a target moves. -/
theorem Tidy.retarget (hs : s.Tidy) (x : Variable) (target : Rat) : (s.retarget x target).Tidy := by
  have hold : ∀ x' e, (s.retarget x target).edits.get? x' = some e →
      ∃ e', s.edits.get? x' = some e' ∧ e'.handle = e.handle := by
    intro x' e he
    rw [get?_retarget] at he
    split at he
    · next heq =>
      obtain ⟨e', he', rfl⟩ := Option.map_eq_some_iff.mp he
      exact ⟨e', heq ▸ he', rfl⟩
    · exact ⟨e, he, rfl⟩
  refine ⟨hs.fits, hs.layout, hs.nodup, hs.apart, fun x' e he => ?_,
    fun x₁ e₁ x₂ e₂ he₁ he₂ heq => ?_⟩
  · obtain ⟨e', he', hhandle⟩ := hold x' e he
    exact hhandle ▸ hs.edit x' e' he'
  · obtain ⟨e₁', he₁', hhandle₁⟩ := hold x₁ e₁ he₁
    obtain ⟨e₂', he₂', hhandle₂⟩ := hold x₂ e₂ he₂
    exact hs.edit_inj x₁ e₁' x₂ e₂' he₁' he₂' (by rw [hhandle₁, hhandle₂, heq])

/-- What a constraint says after a target has moved. -/
theorem Tidy.current_retarget (hs : s.Tidy) (he : s.edits.get? x = some e) (target : Rat)
    (h : Handle) (r : Record Rat) : (s.retarget x target).current h r =
      if h = e.handle then x.heldAt target else s.current h r := by
  have he' : (s.retarget x target).edits.get? x = some { e with target := target } := by
    rw [get?_retarget, if_pos rfl, he, Option.map_some]
  split
  · next heq =>
    rw [heq]
    exact (hs.retarget x target).current_of_edit he' r
  · next hne =>
    refine (hs.retarget x target).current_congr (s := s) fun x' e' hhandle => ?_
    rw [get?_retarget]
    split
    · next heq =>
      rw [heq, he, Option.map_some]
      constructor
      · rintro ⟨⟩
        exact absurd hhandle.symm hne
      · rintro ⟨⟩
        exact absurd hhandle.symm hne
    · exact Iff.rfl

theorem Tidy.equation_retarget (hs : s.Tidy) (he : s.edits.get? x = some e) (target : Rat)
    (h : Handle) (r : Record Rat) (v : Assignment Rat) :
    ((s.retarget x target).current h r).equation h v =
      (s.current h r).equation h v - if h = e.handle then target - e.target else 0 := by
  rw [hs.current_retarget he]
  split
  · next heq =>
    rw [heq, hs.current_of_edit he, Constraint.equation, Constraint.equation,
      x.value_heldAt e.target target]
    ring
  · rw [sub_zero]

/-- The solutions for the new target come from the old ones by moving a symbol of the constraint
that holds it. -/
theorem Tidy.equations_retarget (hs : s.Tidy) (he : s.edits.get? x = some e) (target : Rat)
    {k : Key} {a y : Rat} (hk : k ∈ e.handle.markers)
    (hslope : ∀ r, s.constraints.get? e.handle = some r →
      Slope ((s.current e.handle r).equation e.handle) k a)
    (hy : a * y = -(target - e.target)) (v : Assignment Rat) :
    (s.retarget x target).Equations v ↔ s.Equations (Function.update v k (v k + y)) := by
  obtain ⟨r₀, hr₀, -⟩ := hs.edit x e he
  rw [equations_iff, equations_iff]
  refine forall_congr' fun h => forall_congr' fun r => imp_congr_right fun hr => ?_
  have hr : s.constraints.get? h = some r := hr
  rw [hs.equation_retarget he target h r v]
  by_cases heq : h = e.handle
  · rw [if_pos heq]
    subst heq
    rw [hslope r hr, add_sub_cancel_left, hy, sub_eq_add_neg]
  · have hmem : k ∉ h.markers := fun hmem => heq (hs.apart h r e.handle r₀ k hr hr₀ hmem hk)
    rw [if_neg heq, sub_zero, Handle.equation_ignores (hs.overLayout_current hr)
      ((hs.fits _ _ hr₀).unrestricted hk) hmem, zero_mul, add_zero]

/-- A sum of quantities that are linear in a symbol is linear in it. -/
theorem exists_slope_sum {ι : Type} {k : Key} (l : List ι) (f : ι → Assignment Rat → Rat)
    (hf : ∀ i ∈ l, ∃ a, Slope (f i) k a) : ∃ a, Slope (fun v => (l.map (f · v)).sum) k a := by
  induction l with
  | nil => exact ⟨0, fun v x => by simp⟩
  | cons i rest ih =>
    obtain ⟨a, ha⟩ := hf i List.mem_cons_self
    obtain ⟨b, hb⟩ := ih fun j hj => hf j (List.mem_cons_of_mem _ hj)
    refine ⟨a + b, fun v x => ?_⟩
    have hrest := hb v x
    simp only [List.map_cons, List.sum_cons] at hrest ⊢
    rw [ha v x, hrest]
    ring

/-- The cost of symbols is linear in each of them. -/
theorem exists_slope_charge (s : State Rat) (k : Key) : ∃ a, Slope s.charge k a := by
  refine exists_slope_sum s.constraints.entries (fun e => e.1.price e.2.strength) fun e _ => ?_
  refine exists_slope_sum (e.1.prices e.2.strength) (fun p v => p.coefficient * v p.var)
    fun p _ => ?_
  by_cases hp : p.var = k
  · refine ⟨p.coefficient, fun v x => ?_⟩
    dsimp only
    rw [hp, Function.update_self]
    ring
  · refine ⟨0, fun v x => ?_⟩
    dsimp only
    rw [Function.update_of_ne hp]
    ring

/-- To move the target of an edit variable is to move an error of the constraint that holds it. -/
theorem Tidy.moves (hs : s.Tidy) (he : s.edits.get? x = some e) (target : Rat) :
    ∃ minus, e.handle.Moves minus (target - e.target) s.Equations (s.retarget x target).Equations
      s.charge := by
  obtain ⟨r, hr, ⟨_, hheld⟩, hsoft⟩ := hs.edit x e he
  have hfits := hs.fits _ _ hr
  have hkinds := hfits
  rw [hheld, x.relation_heldAt, hsoft] at hkinds
  obtain ⟨hmarker, minus, hother, hminus⟩ := hkinds
  have hsame : ∀ r', s.constraints.get? e.handle = some r' → r' = r := fun r' hr' =>
    Option.some_inj.mp (hr'.symm.trans hr)
  refine ⟨minus, ⟨hmarker, hother, hminus⟩, fun v => ?_, fun v => ?_, s.exists_slope_charge _,
    s.exists_slope_charge _⟩
  · rw [sub_eq_add_neg]
    refine hs.equations_retarget he target List.mem_cons_self (fun r' hr' => ?_) (one_mul _) v
    rw [hsame r' hr']
    exact Handle.equation_marker (hs.overLayout_current hr) hfits (hs.nodup _ _ hr)
  · refine hs.equations_retarget he target (Handle.mem_markers.mpr (.inr hother)) (fun r' hr' => ?_)
      (neg_one_mul _) v
    rw [hsame r' hr']
    exact Handle.equation_other (hs.overLayout_current hr) hfits (hs.nodup _ _ hr) hother

end State

end Cassowary
