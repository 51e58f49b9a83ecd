import Cassowary.Proofs.Solving

/-!
# The equation of a constraint

A constraint gets symbols of its own, which turn it into an equation, and prices for those that
measure a violation. The symbols are new, so nothing depended on them before. What the insertion
works with is a row that has, at every solution, the value of the equation or its negation.

## Main definitions

* `Slope` — a function changes along a variable at a constant rate
* `Row.Encodes` — a row in the terms of a tableau that says what a function says
* `Constraint.OverLayout` — a constraint that mentions layout variables only
* `Constraint.equation` — what is zero when a constraint and its symbols agree
* `Handle.Fits`, `Handle.price` — the kinds of the symbols, and what they cost
* `Handle.Fresh` — symbols that are given out between two states

## Main results

* `Tableau.Represents.ignores_of_not_known` — nothing depends on a new symbol
* `Tableau.encodes_substituteBasics` — the terms of a tableau do not change what a row says
* `Tableau.ensures_createRow` — the row of a constraint encodes its equation
-/

namespace Cassowary

/-! ## Functions and rows -/

/-- Along a variable, a function changes at the rate `a`. -/
def Slope (f : Assignment Rat → Rat) (k : Key) (a : Rat) : Prop :=
  ∀ v x, f (Function.update v k x) = f v + a * (x - v k)

theorem CostIgnores.slope {f : Assignment Rat → Rat} {k : Key} (h : CostIgnores f k) :
    Slope f k 0 := fun v x => by rw [h v x, zero_mul, add_zero]

theorem Key.internal_of_unrestricted {k : Key} (h : k.unrestricted = true) :
    k.internal = false := by
  obtain ⟨kind, _, _⟩ := k
  cases kind <;> first | rfl | cases h

/-- Keys that no constraint mentions and that are not symbols of one. -/
structure Key.Rowless (k : Key) : Prop where
  unrestricted : k.unrestricted = false
  pivotable : k.pivotable = false
  dummy : k.dummy = false

/-- A row in the terms of a tableau, with a constant that is not negative, whose value at every
solution is that of the function or its negation. -/
structure Row.Encodes (row : Row Rat) (t : Tableau Rat) (S : Assignment Rat → Prop)
    (f : Assignment Rat → Rat) : Prop where
  over_tableau : row.Over t
  proper : row.Proper
  nonneg : 0 ≤ row.constant
  value : ∃ sign : Rat, (sign = 1 ∨ sign = -1) ∧ ∀ v, S v → row.evaluate v = sign * f v

/-! ## Symbols of a constraint -/

namespace Constraint

/-- Only layout variables occur. -/
def OverLayout {α : Type} (c : Constraint α) : Prop := ∀ t ∈ c.terms, t.var.unrestricted = true

/-- What is zero when the symbols make up for the value of the constraint. -/
def equation (c : Constraint Rat) (h : Handle) (v : Assignment Rat) : Rat :=
  c.value v + v h.marker - h.other.elim 0 v

end Constraint

namespace Handle

/-- The terms of the symbols in the equation. -/
def terms {α : Type} [Scalar α] (h : Handle) : List (Term Key α) :=
  ⟨h.marker, 1⟩ :: h.other.toList.map (⟨·, -1⟩)

/-- The terms that the symbols have in the objective. -/
def prices {α : Type} (h : Handle) (s : Strength α) : List (Term Key α) :=
  (h.markers.filter (·.kind = .error)).map (⟨·, s.value⟩)

/-- What the symbols cost. -/
def price (h : Handle) (s : Strength Rat) (v : Assignment Rat) : Rat :=
  ((h.prices s).map fun t => t.coefficient * v t.var).sum

/-- The kinds of the symbols that a constraint gets. -/
def Fits (h : Handle) : Relation → Bool → Prop
  | .lessOrEqual, true => h.marker.kind = .slack ∧ h.other = none
  | .lessOrEqual, false => h.marker.kind = .slack ∧ ∃ e, h.other = some e ∧ e.kind = .error
  | .equal, true => h.marker.kind = .dummy ∧ h.other = none
  | .equal, false => h.marker.kind = .error ∧ ∃ e, h.other = some e ∧ e.kind = .error

/-- The symbols are distinct, and given out from the index `n` on. -/
structure Fresh (h : Handle) (n : Nat) : Prop where
  internal : ∀ k ∈ h.markers, k.internal = true
  le : ∀ k ∈ h.markers, n ≤ k.index.toNat
  nodup : h.markers.Nodup

variable {h : Handle} {k : Key} {relation : Relation} {required : Bool}

theorem mem_markers : k ∈ h.markers ↔ k = h.marker ∨ h.other = some k := by
  rw [markers, List.mem_cons, Option.mem_toList]

theorem var_mem_markers {α : Type} [Scalar α] {p : Term Key α} (hp : p ∈ h.terms) :
    p.var ∈ h.markers := by
  rcases List.mem_cons.mp hp with rfl | hp
  · exact List.mem_cons_self
  · obtain ⟨e, he, rfl⟩ := List.mem_map.mp hp
    exact List.mem_cons_of_mem _ he

theorem mem_prices {α : Type} {s : Strength α} {p : Term Key α} (hp : p ∈ h.prices s) :
    p.var ∈ h.markers ∧ p.coefficient = s.value := by
  obtain ⟨e, he, rfl⟩ := List.mem_map.mp hp
  exact ⟨(List.mem_filter.mp he).1, rfl⟩

theorem fresh_single {n : Nat} (hinternal : k.internal = true) (hindex : k.index.toNat = n) :
    (⟨k, none⟩ : Handle).Fresh n where
  internal := by simp [markers, hinternal]
  le := by simp [markers, hindex]
  nodup := by simp [markers]

theorem fresh_pair {e : Key} {n : Nat} (hinternal : k.internal = true)
    (hinternal' : e.internal = true) (hindex : k.index.toNat = n)
    (hindex' : e.index.toNat = n + 1) :
    (⟨k, some e⟩ : Handle).Fresh n where
  internal := by simp [markers, hinternal, hinternal']
  le := by simp [markers, hindex, hindex']
  nodup := by
    have hne : k ≠ e := by
      rintro rfl
      omega
    simp [markers, hne]

theorem index_lt_of_single {n : Nat} (hindex : k.index.toNat = n) :
    ∀ k' ∈ (⟨k, none⟩ : Handle).markers, k'.index.toNat < n + 1 := by
  intro k' hk'
  obtain rfl : k' = k := List.mem_singleton.mp hk'
  omega

/-- The later one of two symbols has the larger index. -/
theorem index_lt_of_pair {e : Key} {n : Nat} (hindex : k.index.toNat = n)
    (hindex' : e.index.toNat = n + 1) :
    ∀ k' ∈ (⟨k, some e⟩ : Handle).markers, k'.index.toNat < n + 1 + 1 := by
  intro k' hk'
  rcases mem_markers.mp hk' with rfl | hk'
  · omega
  · cases hk'
    omega

/-! Only errors have prices. -/

theorem Fits.prices_of_required {α : Type} (hfits : h.Fits relation true) (s : Strength α) :
    h.prices s = [] := by
  cases relation <;> simp only [Fits] at hfits <;> simp [prices, markers, hfits]

theorem Fits.prices_of_lessOrEqual {α : Type} (hfits : h.Fits .lessOrEqual false)
    (hother : h.other = some k) (s : Strength α) : h.prices s = [⟨k, s.value⟩] := by
  obtain ⟨hmarker, e, he, herror⟩ := hfits
  cases hother.symm.trans he
  simp [prices, markers, hother, hmarker, herror]

theorem Fits.prices_of_equal {α : Type} (hfits : h.Fits .equal false) (hother : h.other = some k)
    (s : Strength α) : h.prices s = [⟨h.marker, s.value⟩, ⟨k, s.value⟩] := by
  obtain ⟨hmarker, e, he, herror⟩ := hfits
  cases hother.symm.trans he
  simp [prices, markers, hother, hmarker, herror]

/-- Symbols are slacks, errors or dummies. -/
theorem Fits.kind (hfits : h.Fits relation required) (hk : k ∈ h.markers) :
    k.pivotable = true ∨ k.dummy = true := by
  have hof : ∀ {k : Key}, k.kind = .slack ∨ k.kind = .error ∨ k.kind = .dummy →
      k.pivotable = true ∨ k.dummy = true := fun {k} hkind => by
    rcases hkind with hkind | hkind | hkind <;>
      simp [Key.pivotable, Key.dummy, hkind, Kind.pivotable]
  cases relation <;> cases required <;> simp only [Fits] at hfits <;>
    rcases mem_markers.mp hk with rfl | hother <;> grind

theorem Fits.unrestricted (hfits : h.Fits relation required) (hk : k ∈ h.markers) :
    k.unrestricted = false := by
  rcases hfits.kind hk with hk | hk
  · exact Key.unrestricted_of_pivotable hk
  · exact Key.unrestricted_of_dummy hk

theorem Fits.internal (hfits : h.Fits relation required) (hk : k ∈ h.markers) :
    k.internal = true := by
  have hkind := hfits.kind hk
  obtain ⟨kind, derived, index⟩ := k
  cases kind <;> first | rfl | simp [Key.pivotable, Key.dummy, Kind.pivotable] at hkind

/-- The marker of a constraint that may be violated has an error variable beside it. -/
theorem Fits.pivotable_of_other (hfits : h.Fits relation required) {e : Key}
    (he : h.other = some e) :
    h.marker.pivotable = true ∧ e.pivotable = true := by
  cases relation <;> cases required <;> simp only [Fits, he] at hfits
  · obtain ⟨hmarker, e', ⟨⟩, herror⟩ := hfits
    simp [Key.pivotable, hmarker, herror, Kind.pivotable]
  · cases hfits.2
  · obtain ⟨hmarker, e', ⟨⟩, herror⟩ := hfits
    simp [Key.pivotable, hmarker, herror, Kind.pivotable]
  · cases hfits.2

end Handle

/-! ## Nothing depends on a new symbol -/

namespace Tableau

open Attempt

variable {t t' : Tableau Rat} {S : Assignment Rat → Prop} {cost cost' f : Assignment Rat → Rat}
  {row : Row Rat} {k : Key} {exact quiet : Prop} {handle : Handle} {a : Rat}

/-- A symbol that has not been given out occurs nowhere, so the solutions do not depend on it. -/
theorem Represents.ignores_of_not_known (h : t.Represents S cost) (hk : ¬ t.Known k) :
    Ignores S k := by
  intro v x hv
  rw [← h.solves_iff, Tableau.solves_iff] at hv ⊢
  intro k' row hrow
  have hne : k' ≠ k := by
    rintro rfl
    exact hk (h.separated.known (isBasic_of_get? hrow))
  have hcontains : row.contains k = false := Bool.eq_false_iff.mpr fun hcontains =>
    hk ((h.over_row hrow).known hcontains)
  rw [Function.update_of_ne hne, Row.evaluate_update, Row.coefficientFor_of_not_contains hcontains,
    zero_mul, add_zero, hv k' row hrow]

/-! ## Another objective -/

theorem Represents.of_objective (h : t.Represents S cost) (hrows : t'.rows = t.rows)
    (hartificial : t'.artificial = t.artificial) (hid : t.nextId ≤ t'.nextId)
    (hover : t'.objective.Over t') (hproper : t'.objective.Proper)
    (hoffset : ∃ offset, ∀ v, S v → t'.objective.evaluate v + offset = cost' v) :
    t'.Represents S cost' := by
  refine ⟨h.separated.of_objective hrows hartificial hid hover,
    fun hrow => h.proper_row (hrows ▸ hrow), fun {target row} hrow => ?_, fun v => ?_, hoffset⟩
  · cases target with
    | objective => cases hrow; exact hproper
    | artificial =>
      rw [targetRow, hartificial] at hrow
      exact h.proper_target (show t.targetRow .artificial = some row from hrow)
  · rw [← h.solves_iff, Solves, Solves, hrows]

theorem Prepared.of_objective (h : t.Prepared exact quiet S cost) (hrows : t'.rows = t.rows)
    (hartificial : t'.artificial = t.artificial) (hid : t.nextId ≤ t'.nextId)
    (hqueue : t'.infeasible = t.infeasible) (hepsilon : t'.epsilon = t.epsilon)
    (hover : t'.objective.Over t') (hproper : t'.objective.Proper)
    (hfree : ∀ k, k.unrestricted = true → t'.objective.coefficientFor k = 0)
    (hoffset : ∃ offset, ∀ v, S v → t'.objective.evaluate v + offset = cost' v) :
    t'.Prepared exact quiet S cost' where
  canonical :=
    { represents := h.represents.of_objective hrows hartificial hid hover hproper hoffset
      layered :=
        { row := fun hrow => h.canonical.layered.row (hrows ▸ hrow)
          target := fun {target row k'} hrow hk' => by
            cases target with
            | objective =>
              cases hrow
              exact hfree k' hk'
            | artificial =>
              rw [targetRow, hartificial] at hrow
              exact h.canonical.layered.target
                (show t.targetRow .artificial = some row from hrow) hk' }
      queue := h.canonical.queue.of_eq hqueue }
  epsilon hexact := hepsilon.trans (h.epsilon hexact)
  queued hexact := (h.queued hexact).of_eq hrows hqueue hepsilon
  idle hexact hquiet := (h.idle hexact hquiet).of_eq hrows

/-! ## New symbols -/

section Symbols

variable {α : Type} [Scalar α]

omit [Scalar α] in
theorem ensures_newSymbol (kind : Kind) (t : Tableau α) :
    Ensures (newSymbol kind) t
      (fun k t' => (k.kind = kind ∧ k.index.toNat = t.nextId) ∧
        t' = { t with nextId := t.nextId + 1 })
      fun cause _ => ∃ i, cause = .indexSpaceExhausted i := by
  unfold Ensures newSymbol Key.allocate Key.ofIndex?
  by_cases hle : t.nextId ≤ Key.maxIndex
  · have hlt : t.nextId < 2 ^ 27 := by
      have hmax : Key.maxIndex = 2 ^ 27 - 1 := rfl
      omega
    rw [if_pos hle]
    exact ⟨⟨rfl, (BitVec.toNat_ofNat _ _).trans (Nat.mod_eq_of_lt hlt)⟩, rfl⟩
  · rw [if_neg hle]
    exact ⟨_, rfl⟩

/-- The symbols of a constraint, its row with them, and their prices in the objective. -/
theorem ensures_addMarkers (row : Row α) (relation : Relation) (s : Strength α) (t : Tableau α) :
    Ensures (addMarkers row relation s) t
      (fun r t' => r.1 = row.insertAll r.2.terms ∧ r.2.Fits relation s.isRequired ∧
        r.2.Fresh t.nextId ∧ (∀ k ∈ r.2.markers, k.index.toNat < t'.nextId) ∧
        ∃ journal, t' = { t with
          nextId := t'.nextId, journal := journal
          objective := t.objective.insertAll (r.2.prices s) })
      fun cause _ => ∃ i, cause = .indexSpaceExhausted i := by
  have hinternal : ∀ {k : Key} {kind : Kind}, k.kind = kind → kind.internal = true →
      k.internal = true := fun hkind hinternal => by rw [Key.internal, hkind, hinternal]
  unfold addMarkers setPrice
  split
  · next hrequired =>
    simp only [ensures_bind, ensures_pure]
    refine (ensures_newSymbol .slack t).imp ?_ fun _ _ => id
    rintro slack t' ⟨⟨hkind, hindex⟩, rfl⟩
    have hfits : (⟨slack, none⟩ : Handle).Fits .lessOrEqual true := ⟨hkind, rfl⟩
    rw [hrequired, hfits.prices_of_required]
    exact ⟨rfl, hfits, Handle.fresh_single (hinternal hkind rfl) hindex,
      Handle.index_lt_of_single hindex, _, rfl⟩
  · next hrequired =>
    simp only [ensures_bind, ensures_pure, ensures_modify]
    refine (ensures_newSymbol .slack t).imp ?_ fun _ _ => id
    rintro slack t' ⟨⟨hkind, hindex⟩, rfl⟩
    refine (ensures_newSymbol .error _).imp ?_ fun _ _ => id
    rintro error t' ⟨⟨hkind', hindex'⟩, rfl⟩
    have hfits : (⟨slack, some error⟩ : Handle).Fits .lessOrEqual false :=
      ⟨hkind, error, rfl, hkind'⟩
    rw [hrequired, hfits.prices_of_lessOrEqual rfl]
    exact ⟨rfl, hfits, Handle.fresh_pair (hinternal hkind rfl) (hinternal hkind' rfl) hindex hindex',
      Handle.index_lt_of_pair hindex hindex', _, rfl⟩
  · next hrequired =>
    simp only [ensures_bind, ensures_pure]
    refine (ensures_newSymbol .dummy t).imp ?_ fun _ _ => id
    rintro dummy t' ⟨⟨hkind, hindex⟩, rfl⟩
    have hfits : (⟨dummy, none⟩ : Handle).Fits .equal true := ⟨hkind, rfl⟩
    rw [hrequired, hfits.prices_of_required]
    exact ⟨rfl, hfits, Handle.fresh_single (hinternal hkind rfl) hindex,
      Handle.index_lt_of_single hindex, _, rfl⟩
  · next hrequired =>
    simp only [ensures_bind, ensures_pure, ensures_modify]
    refine (ensures_newSymbol .error t).imp ?_ fun _ _ => id
    rintro plus t' ⟨⟨hkind, hindex⟩, rfl⟩
    refine (ensures_newSymbol .error _).imp ?_ fun _ _ => id
    rintro minus t' ⟨⟨hkind', hindex'⟩, rfl⟩
    have hfits : (⟨plus, some minus⟩ : Handle).Fits .equal false := ⟨hkind, minus, rfl, hkind'⟩
    rw [hrequired, hfits.prices_of_equal rfl]
    exact ⟨rfl, hfits, Handle.fresh_pair (hinternal hkind rfl) (hinternal hkind' rfl) hindex hindex',
      Handle.index_lt_of_pair hindex hindex', _, rfl⟩

/-- Symbols may run out before there are prices, and then nothing has changed but the next index. -/
theorem ensures_addMarkers_failed (row : Row α) (relation : Relation) (s : Strength α)
    (t : Tableau α) :
    Ensures (addMarkers row relation s) t (fun _ _ => True)
      fun _ t' => ∃ n, t.nextId ≤ n ∧ t' = { t with nextId := n } := by
  have hsymbol : ∀ (kind : Kind) (t : Tableau α), Ensures (newSymbol kind) t
      (fun _ t' => t' = { t with nextId := t.nextId + 1 }) fun _ t' => t' = t := by
    intro kind t
    unfold Ensures newSymbol
    cases Key.allocate kind false t.nextId <;> rfl
  have hpair : ∀ kind kind', Ensures (newSymbol kind) t
      (fun _ t₁ => Ensures (newSymbol kind') t₁ (fun _ _ => True)
        fun _ t' => ∃ n, t.nextId ≤ n ∧ t' = { t with nextId := n })
      fun _ t' => ∃ n, t.nextId ≤ n ∧ t' = { t with nextId := n } := by
    intro kind kind'
    refine (hsymbol kind t).imp ?_ fun _ t' ht' => ⟨t.nextId, le_rfl, ht'⟩
    rintro _ _ rfl
    exact (hsymbol kind' _).imp (fun _ _ _ => trivial) fun _ t' ht' => ⟨_, Nat.le_succ _, ht'⟩
  have hsingle : ∀ kind, Ensures (newSymbol kind) t (fun _ _ => True)
      fun _ t' => ∃ n, t.nextId ≤ n ∧ t' = { t with nextId := n } := fun kind =>
    (hsymbol kind t).imp (fun _ _ _ => trivial) fun _ t' ht' => ⟨t.nextId, le_rfl, ht'⟩
  unfold addMarkers setPrice
  split <;> simp only [ensures_bind, ensures_pure, ensures_modify]
  · exact hsingle .slack
  · exact hpair .slack .error
  · exact hsingle .dummy
  · exact hpair .error .error

/-- The symbols of a constraint are made without a change of the rows. -/
theorem ensures_createRow_rows (c : Constraint α) (s : Strength α) (t : Tableau α) :
    Ensures (createRow c s) t
      (fun _ t' => t'.rows = t.rows ∧ t'.infeasible = t.infeasible ∧ t'.epsilon = t.epsilon)
      fun _ _ => True := by
  refine ensures_bind _ |>.mpr ((ensures_addMarkers _ _ s t).imp ?_ fun _ _ _ => trivial)
  rintro ⟨row, handle⟩ t' ⟨-, -, -, -, journal, ht'⟩
  rw [ensures_bind, ensures_get, ensures_pure, ht']
  exact ⟨rfl, rfl, rfl⟩

/-- The symbols of a constraint are made without a pivot. -/
theorem ensures_createRow_counts (c : Constraint α) (s : Strength α) (t : Tableau α) :
    Ensures (createRow c s) t (fun _ t' => t'.pivots = t.pivots ∧ t'.deferred = t.deferred)
      fun _ _ => True := by
  refine ensures_bind _ |>.mpr ((ensures_addMarkers _ _ s t).imp ?_ fun _ _ _ => trivial)
  rintro ⟨row, handle⟩ t' ⟨-, -, -, -, journal, ht'⟩
  rw [ensures_bind, ensures_get, ensures_pure, ht']
  exact ⟨rfl, rfl⟩

variable {t t' : Tableau α} {c : Constraint α} {handle : Handle} {k : Key}

/-- Layout variables are not symbols of the solver, so the equation of a constraint mentions no
symbol that has not been given out. -/
theorem known_of_mem_equation (hc : c.OverLayout) (hmarkers : ∀ k ∈ handle.markers, t.Known k)
    (hk : ((Row.ofConstraint c).insertAll handle.terms).contains k = true) : t.Known k := by
  rcases Row.contains_of_contains_insertAll hk with hmem | hk
  · obtain ⟨p, hp, rfl⟩ := List.mem_map.mp hmem
    exact hmarkers _ (Handle.var_mem_markers hp)
  rcases Row.contains_of_contains_insertAll hk with hmem | hk
  · obtain ⟨p, hp, rfl⟩ := List.mem_map.mp hmem
    intro hinternal
    rw [Key.internal_of_unrestricted (hc p hp)] at hinternal
    cases hinternal
  · cases hk

/-- New symbols are not basic, so giving them prices keeps a tableau separated. -/
theorem Separated.insertPrices (h : t.Separated) {journal : Option (Journal α)} {s : Strength α}
    (hid : t.nextId ≤ t'.nextId)
    (ht' : t' = { t with
      nextId := t'.nextId, journal := journal
      objective := t.objective.insertAll (handle.prices s) })
    (hfresh : handle.Fresh t.nextId) (hlt : ∀ k ∈ handle.markers, k.index.toNat < t'.nextId) :
    t'.Separated := by
  have hrows : t'.rows = t.rows := by rw [ht']
  have hold : t.objective.Over t' := h.objective.mono (fun b hb => by rwa [isBasic, hrows] at hb) hid
  refine h.of_objective hrows (by rw [ht']) hid ?_
  rw [show t'.objective = t.objective.insertAll (handle.prices s) by rw [ht']]
  refine hold.insertAll fun p hp => ?_
  have hmem := (Handle.mem_prices hp).1
  refine ⟨Bool.eq_false_iff.mpr fun hb => ?_, fun _ => hlt _ hmem⟩
  rw [isBasic, hrows] at hb
  exact absurd (h.known hb (hfresh.internal _ hmem)) (not_lt.mpr (hfresh.le _ hmem))

end Symbols

/-! ## The row of a constraint -/

/-- In the terms of a tableau, a row says the same. -/
theorem encodes_substituteBasics (h : t.Represents S cost) (hproper : row.Proper)
    (hknown : ∀ k, row.contains k = true → t.Known k)
    (hvalue : ∃ sign : Rat, (sign = 1 ∨ sign = -1) ∧ ∀ v, S v → row.evaluate v = sign * f v) :
    (t.substituteBasics row).normalize.Encodes t S f := by
  have hnonneg := Row.constant_normalize_nonneg (t.substituteBasics row)
  have hcases := Row.normalize_eq_or (t.substituteBasics row)
  have hsubstituted : (t.substituteBasics row).Proper :=
    (h.evaluate_substituteBasics hproper (h.solves_complete fun _ => 0)).1
  obtain ⟨sign, hsign, hvalue⟩ := hvalue
  refine ⟨(h.separated.substituteBasics hknown).normalize, hsubstituted.normalize, hnonneg, ?_⟩
  -- A row that would have a negative constant changes its sign
  rcases hcases with heq | heq
  · refine ⟨sign, hsign, fun v hv => ?_⟩
    rw [heq, (h.evaluate_substituteBasics hproper hv).2, hvalue v hv]
  · refine ⟨-sign, ?_, fun v hv => ?_⟩
    · rcases hsign with rfl | rfl
      · exact .inr rfl
      · exact .inl (neg_neg 1)
    · rw [heq, Row.evaluate_reverseSign, (h.evaluate_substituteBasics hproper hv).2, hvalue v hv,
        neg_mul]

theorem evaluate_equation (c : Constraint Rat) (handle : Handle) (v : Assignment Rat) :
    ((Row.ofConstraint c).insertAll handle.terms).evaluate v = c.equation handle v := by
  have hconstant : (Row.ofConstant c.constant).Proper := Row.proper_ofConstant _
  rw [Row.ofConstraint, Row.evaluate_insertAll (hconstant.insertAll _),
    Row.evaluate_insertAll hconstant]
  have hvalue : (Row.ofConstant c.constant).evaluate v = c.constant := rfl
  rw [hvalue, Constraint.equation, Constraint.value, Handle.terms]
  cases handle.other with
  | none =>
    simp only [Option.toList_none, List.map_nil, List.map_cons, List.sum_cons, List.sum_nil,
      Option.elim_none]
    ring
  | some e =>
    simp only [Option.toList_some, List.map_nil, List.map_cons, List.sum_cons, List.sum_nil,
      Option.elim_some]
    ring

/-- Terms with coefficients that are not negative keep an objective minimal. -/
theorem minimal_insertAll (hproper : row.Proper) (h : row.Minimal) {ts : List (Term Key Rat)}
    (hts : ∀ p ∈ ts, 0 ≤ p.coefficient) : (row.insertAll ts).Minimal := by
  intro k hk
  rw [Row.coefficientFor_insertAll hproper]
  refine add_nonneg (h k hk) (List.sum_nonneg fun x hx => ?_)
  obtain ⟨p, hp, rfl⟩ := List.mem_map.mp hx
  split
  · exact hts p hp
  · exact le_rfl

/-- The prices of new symbols are a cost that comes in. -/
theorem Prepared.insertPrices (h : t.Prepared exact quiet S cost) {journal : Option (Journal Rat)}
    {s : Strength Rat} (hid : t.nextId ≤ t'.nextId)
    (ht' : t' = { t with
      nextId := t'.nextId, journal := journal
      objective := t.objective.insertAll (handle.prices s) })
    (hrestricted : ∀ k ∈ handle.markers, k.unrestricted = false)
    (hfresh : handle.Fresh t.nextId) (hlt : ∀ k ∈ handle.markers, k.index.toNat < t'.nextId) :
    t'.Prepared exact quiet S fun v => cost v + handle.price s v := by
  have hr := h.represents
  have hrows : t'.rows = t.rows := by rw [ht']
  have hobjective : t'.objective = t.objective.insertAll (handle.prices s) := by rw [ht']
  have hover := (hr.separated.insertPrices hid ht' hfresh hlt).objective
  have hfree : ∀ k, k.unrestricted = true → t'.objective.coefficientFor k = 0 := by
    intro k hk
    rw [hobjective, Row.coefficientFor_insertAll hr.proper_objective,
      h.canonical.layered.objective hk, zero_add]
    apply List.sum_eq_zero
    intro x hx
    obtain ⟨p, hp, rfl⟩ := List.mem_map.mp hx
    apply if_neg
    rintro rfl
    rw [hrestricted _ (Handle.mem_prices hp).1] at hk
    cases hk
  refine h.of_objective hrows (by rw [ht']) hid (by rw [ht']) (by rw [ht']) hover
    (hobjective ▸ hr.proper_objective.insertAll _) hfree ?_
  obtain ⟨offset, hoffset⟩ := hr.exists_offset
  refine ⟨offset, fun v hv => ?_⟩
  rw [hobjective, Row.evaluate_insertAll hr.proper_objective, ← hoffset v hv, Handle.price]
  ring

/-- An insertion starts with new symbols and a row that encodes the equation of the constraint. -/
theorem ensures_createRow (h : t.Sound exact quiet S cost) {c : Constraint Rat} (hc : c.OverLayout)
    {s : Strength Rat} (hs : exact → 0 ≤ s.value) :
    Ensures (createRow c s) t
      (fun r t' => r.2.Fits c.relation s.isRequired ∧ r.2.Fresh t.nextId ∧
        t'.Sound exact quiet S (fun v => cost v + r.2.price s v) ∧
        r.1.Encodes t' S (c.equation r.2))
      fun cause _ => ∃ i, cause = .indexSpaceExhausted i := by
  have hr := h.prepared.represents
  refine ensures_createRow_of ((ensures_addMarkers _ _ s t).imp ?_ fun _ _ => id)
  rintro ⟨row, handle⟩ t' ⟨hrow, hfits, hfresh, hlt, journal, ht'⟩
  dsimp only at hrow hfits hfresh hlt ht' ⊢
  have hid : t.nextId ≤ t'.nextId :=
    (hfresh.le _ List.mem_cons_self).trans (hlt _ List.mem_cons_self).le
  have hprepared := h.prepared.insertPrices hid ht' (fun _ => hfits.unrestricted) hfresh hlt
  have hminimal : exact → t'.deferred = false → t'.objective.Minimal := by
    intro hexact hdeferred
    rw [ht'] at hdeferred ⊢
    apply minimal_insertAll hr.proper_objective (h.optimal hexact hdeferred)
    intro p hp
    rw [(Handle.mem_prices hp).2]
    exact hs hexact
  refine ⟨hfits, hfresh, ⟨hprepared, by rw [ht']; exact h.queue, hminimal⟩, ?_⟩
  have hproper : (Row.ofConstraint c).Proper := (Row.proper_ofConstant _).insertAll _
  refine encodes_substituteBasics hprepared.represents (hrow ▸ hproper.insertAll _) (fun k hk => ?_)
    ⟨1, .inl rfl, fun v _ => by rw [hrow, evaluate_equation, one_mul]⟩
  rw [hrow] at hk
  exact known_of_mem_equation hc (fun k hk _ => hlt k hk) hk

end Tableau

end Cassowary
