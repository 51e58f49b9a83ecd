import Cassowary.Proofs.Batching
import Cassowary.Proofs.Refusal

/-!
# How many symbols constraints need

Which symbols a constraint gets depends on those that were given out before. How many it needs does
not: one or two of its own, and one more for an artificial variable if its equation is hidden. That,
too, can be told without any symbol. The symbols settle the value of an equality just if the values
of all constraints do, and the dummies settle it just if those of the required equalities do.

So the constants do not matter, and neither do constraints that have come and gone. What is held
could be inserted again with no more symbols than have been given out.

## Main definitions

* `Shape` — a constraint without its constant
* `Shape.Follows`, `Shape.Hidden` — the values of some constraints settle that of another one
* `Shape.demand`, `Shape.demands` — the symbols that constraints need
* `State.Covered`, `Solver.Covered` — no more are needed for what is held than have been given out

## Main results

* `State.Tidy.hidden_iff` — hidden equations, told without symbols
* `State.Tidy.reserve_cases` — an insertion gives out the symbols that are needed, if there are
  enough
* `Solver.covered_run` — without removals, what is held is covered after every run
-/

namespace Cassowary

open Attempt

/-! ## Shapes -/

/-- What a constraint says but for its constant, and whether it is required. -/
structure Shape where
  terms : List (Term Key Rat)
  relation : Relation
  required : Bool

/-- The shape of a constraint with a strength. -/
def Constraint.shape (c : Constraint Rat) (w : Strength Rat) : Shape :=
  ⟨c.terms, c.relation, w.isRequired⟩

namespace Shape

variable {a b : Shape} {as bs bs' : List Shape}

/-- The value of the terms. -/
def value (a : Shape) (v : Assignment Rat) : Rat :=
  (a.terms.map fun t => t.coefficient * v t.var).sum

/-- The values of some shapes settle the value of another one. -/
def Follows (a : Shape) (bs : List Shape) : Prop :=
  ∀ v w : Assignment Rat, (∀ b ∈ bs, b.value v = b.value w) → a.value v = a.value w

/-- Whether a constraint of this shape is marked by a dummy. -/
def fixed (a : Shape) : Bool := a.required && decide (a.relation = .equal)

/-- A required equality whose value all constraints settle, and required equalities alone do not. -/
def Hidden (a : Shape) (bs : List Shape) : Prop :=
  a.fixed = true ∧ a.Follows bs ∧ ¬ a.Follows (bs.filter fixed)

/-- How many symbols a constraint has. -/
def symbols (a : Shape) : Nat := if a.required then 1 else 2

open Classical in
/-- How many symbols a constraint needs beside others. -/
noncomputable def demand (bs : List Shape) (a : Shape) : Nat :=
  a.symbols + if a.Hidden bs then 1 else 0

/-- How many symbols constraints need that come one after the other, beside others. -/
noncomputable def demands (bs : List Shape) : List Shape → Nat
  | [] => 0
  | a :: as => demand bs a + demands (bs ++ [a]) as

theorem demands_append (bs as as' : List Shape) :
    demands bs (as ++ as') = demands bs as + demands (bs ++ as) as' := by
  induction as generalizing bs with
  | nil => simp [demands]
  | cons a as ih =>
    rw [List.cons_append, demands, demands, ih, List.append_assoc, add_assoc]
    rfl

theorem demands_concat (bs : List Shape) (a : Shape) :
    demands [] (bs ++ [a]) = demands [] bs + demand bs a := by
  rw [demands_append]
  rfl

theorem Follows.mono (h : a.Follows bs) (hsubset : bs ⊆ bs') : a.Follows bs' :=
  fun v w hsame => h v w fun b hb => hsame b (hsubset hb)

/-- Constraints need no fewer symbols beside more of others, if there are the same required
equalities among these. -/
theorem demands_le_of_subset (hsubset : bs ⊆ bs') (hfixed : bs.filter fixed = bs'.filter fixed)
    (as : List Shape) : demands bs as ≤ demands bs' as := by
  classical
  induction as generalizing bs bs' with
  | nil => exact le_rfl
  | cons a as ih =>
    have hhidden : a.Hidden bs → a.Hidden bs' := fun ⟨hequality, hfollows, hnot⟩ =>
      ⟨hequality, hfollows.mono hsubset, hfixed ▸ hnot⟩
    have hdemand : demand bs a ≤ demand bs' a := by
      unfold demand
      split
      · next h => rw [if_pos (hhidden h)]
      · omega
    refine Nat.add_le_add hdemand (ih ?_ ?_)
    · exact List.append_subset.mpr ⟨fun _ hb => List.mem_append_left _ (hsubset hb),
        List.subset_append_right _ _⟩
    · rw [List.filter_append, List.filter_append, hfixed]

/-- Constraints need no more symbols when one that is no required equality is left out. -/
theorem demands_le_of_erase (hb : b.fixed = false) (as as' : List Shape) :
    demands [] (as ++ as') ≤ demands [] (as ++ b :: as') := by
  rw [demands_append, demands_append, List.nil_append, demands]
  have hrest : demands as as' ≤ demands (as ++ [b]) as' := by
    refine demands_le_of_subset (List.subset_append_left _ _) ?_ as'
    rw [List.filter_append, List.filter_cons_of_neg (by rw [hb]; exact Bool.false_ne_true),
      List.filter_nil, List.append_nil]
  omega

/-- No required equality is hidden beside nothing but required equalities. -/
theorem not_hidden_of_fixed (hbs : a.fixed = true → ∀ b ∈ bs, b.fixed = true) : ¬ a.Hidden bs := by
  rintro ⟨hfixed, hfollows, hnot⟩
  rw [List.filter_eq_self.mpr (hbs hfixed)] at hnot
  exact hnot hfollows

/-- Beside nothing but required equalities, a required equality asks for no artificial variable. -/
theorem demand_of_fixed (hbs : a.fixed = true → ∀ b ∈ bs, b.fixed = true) :
    demand bs a = a.symbols := by
  rw [demand, if_neg (not_hidden_of_fixed hbs), Nat.add_zero]

end Shape

theorem Constraint.value_eq (c : Constraint Rat) (w : Strength Rat) (v : Assignment Rat) :
    c.value v = (c.shape w).value v + c.constant := rfl

/-- Constraints of one shape differ by a constant. -/
theorem Constraint.value_eq_iff_of_shape {c c' : Constraint Rat} {w w' : Strength Rat}
    (hshape : c.shape w = c'.shape w') (v v' : Assignment Rat) :
    c.value v = c.value v' ↔ (c'.shape w').value v = (c'.shape w').value v' := by
  rw [c.value_eq w, c.value_eq w, hshape, add_left_inj]

namespace Handle

variable {h : Handle} {c : Constraint Rat} {w : Strength Rat}

/-- The required equalities are those that dummies mark. -/
theorem Fits.dummy_iff (hfits : h.Fits c.relation w.isRequired) :
    h.marker.dummy = true ↔ (c.shape w).fixed = true := by
  unfold Shape.fixed Constraint.shape
  cases hrelation : c.relation <;> cases hrequired : w.isRequired <;>
    rw [hrelation, hrequired] at hfits <;> simp [Key.dummy, hfits.1]

theorem Fits.other_of_dummy (hfits : h.Fits c.relation w.isRequired)
    (hdummy : h.marker.dummy = true) : h.other = none := by
  by_contra hother
  obtain ⟨k, hk⟩ := Option.ne_none_iff_exists'.mp hother
  have hpivotable := (hfits.pivotable_of_other hk).1
  rw [hfits.pivotable_of_dummy hdummy List.mem_cons_self] at hpivotable
  cases hpivotable

end Handle

namespace State

variable {s : State Rat} {h : Handle} {r : Record Rat} {c : Constraint Rat} {w : Strength Rat}
  {k : Key} {v : Assignment Rat}

/-- The shapes of what is held. -/
def shapes (s : State Rat) : List Shape :=
  s.constraints.entries.map fun e => e.2.constraint.shape e.2.strength

theorem mem_shapes {b : Shape} : b ∈ s.shapes ↔
    ∃ h r, s.constraints.get? h = some r ∧ b = r.constraint.shape r.strength := by
  simp only [shapes, List.mem_map, Table.get?_eq_some_iff, Prod.exists, eq_comm (a := b)]

theorem shapes_register (hnew : s.constraints.get? h = none) :
    (s.register h r).shapes = s.shapes ++ [r.constraint.shape r.strength] := by
  unfold shapes register
  rw [Table.entries_insert_of_notMem (Table.get?_eq_none_iff.mp hnew), List.map_append]
  rfl

/-- A target leaves the shape of its constraint as it is. -/
theorem Tidy.shape_current (hs : s.Tidy) (hr : s.constraints.get? h = some r) :
    (s.current h r).shape w = r.constraint.shape w := by
  rcases s.current_cases h r with ⟨x, e, he, rfl, hcurrent⟩ | ⟨-, hcurrent⟩
  · obtain ⟨r', hr', ⟨target, hheld⟩, -⟩ := hs.edit x e he
    cases hr.symm.trans hr'
    rw [hcurrent, hheld]
    rfl
  · rw [hcurrent]

theorem Tidy.value_current_eq_iff (hs : s.Tidy) (hr : s.constraints.get? h = some r)
    (v v' : Assignment Rat) : (s.current h r).value v = (s.current h r).value v' ↔
      (r.constraint.shape r.strength).value v = (r.constraint.shape r.strength).value v' :=
  Constraint.value_eq_iff_of_shape (hs.shape_current hr) v v'

/-! ## Equations that are hidden -/

/-- Values of the symbols that meet all equations, whatever the values of the layout variables: a
marker makes up for the value of its constraint, whether it may or not. -/
def balance (s : State Rat) (v : Assignment Rat) : Assignment Rat := fun k =>
  if k.unrestricted then v k
  else match s.constraints.entries.find? (k = ·.1.marker) with
    | some (h, r) => -(s.current h r).value v
    | none => 0

theorem balance_of_unrestricted (v : Assignment Rat) (hk : k.unrestricted = true) :
    s.balance v k = v k := if_pos hk

theorem balance_of_forall_ne (v : Assignment Rat) (hk : k.unrestricted = false)
    (hne : ∀ h r, s.constraints.get? h = some r → k ≠ h.marker) : s.balance v k = 0 := by
  have hfind : s.constraints.entries.find? (k = ·.1.marker) = none :=
    List.find?_eq_none.mpr fun e he heq =>
      hne e.1 e.2 (Table.get?_eq_some_iff.mpr he) (of_decide_eq_true heq)
  rw [balance, if_neg (by rw [hk]; exact Bool.false_ne_true), hfind]

section Balance

variable (hs : s.Tidy)
include hs

theorem Tidy.balance_marker (hr : s.constraints.get? h = some r) (v : Assignment Rat) :
    s.balance v h.marker = -(s.current h r).value v := by
  have hrestricted := (hs.fits h r hr).unrestricted List.mem_cons_self
  rw [balance, if_neg (by rw [hrestricted]; exact Bool.false_ne_true)]
  cases hfind : s.constraints.entries.find? (h.marker = ·.1.marker) with
  | none =>
    exact absurd (decide_eq_true rfl)
      (List.find?_eq_none.mp hfind _ (Table.get?_eq_some_iff.mp hr))
  | some found =>
    obtain ⟨h', r'⟩ := found
    have hr' := Table.get?_eq_some_iff.mpr (List.mem_of_find?_eq_some hfind)
    have hfound := List.find?_some hfind
    have hmarker : h.marker = h'.marker := of_decide_eq_true hfound
    obtain rfl := hs.apart h' r' h r h.marker hr' hr (hmarker ▸ List.mem_cons_self)
      List.mem_cons_self
    cases hr'.symm.trans hr
    rfl

theorem Tidy.balance_other (hr : s.constraints.get? h = some r) (hk : h.other = some k)
    (v : Assignment Rat) : s.balance v k = 0 := by
  have hmem : k ∈ h.markers := Handle.mem_markers.mpr (.inr hk)
  refine balance_of_forall_ne v ((hs.fits h r hr).unrestricted hmem) fun h' r' hr' heq => ?_
  obtain rfl := hs.apart h' r' h r k hr' hr (heq ▸ List.mem_cons_self) hmem
  have hnodup := hs.nodup h' r' hr'
  simp [Handle.markers, hk, heq] at hnodup

omit hs in
theorem value_balance (hc : c.OverLayout) (v : Assignment Rat) :
    c.value (s.balance v) = c.value v :=
  c.value_congr hc fun _ hk => balance_of_unrestricted v hk

theorem Tidy.equations_balance (v : Assignment Rat) : s.Equations (s.balance v) := by
  rw [equations_iff]
  intro h r hr
  have hother : h.other.elim 0 (s.balance v) = 0 := by
    cases hk : h.other with
    | none => rfl
    | some k => exact hs.balance_other hr hk v
  rw [Constraint.equation, hother, hs.balance_marker hr, value_balance (hs.overLayout_current hr)]
  ring

/-- Symbols settle what a new constraint says if the values of the constraints do that have no other
symbols. -/
theorem Tidy.settles_iff_follows (hc : c.OverLayout)
    (hother : h.other = none) {P : Key → Prop} (hrestricted : ∀ k, P k → k.unrestricted = false)
    (hmarker : P h.marker) {bs : List Shape}
    (hsettled : ∀ b ∈ bs, ∃ h' r', s.constraints.get? h' = some r' ∧
      b = r'.constraint.shape r'.strength ∧ ∀ k ∈ h'.markers, P k)
    (hmarked : ∀ h' r', s.constraints.get? h' = some r' → P h'.marker →
      r'.constraint.shape r'.strength ∈ bs) :
    Settles P s.Equations (c.equation h) ↔ (c.shape w).Follows bs := by
  have hequation : ∀ v, c.equation h v = (c.shape w).value v + c.constant + v h.marker := fun v => by
    rw [Constraint.equation, hother, c.value_eq w, Option.elim_none, sub_zero]
  constructor
  · intro hsettles v v' hsame
    -- Balanced symbols of this kind depend on nothing but these values
    have hbalanced : ∀ k, P k → s.balance v k = s.balance v' k := by
      intro k hk
      by_cases hheld : ∃ h' r', s.constraints.get? h' = some r' ∧ k = h'.marker
      · obtain ⟨h', r', hr', rfl⟩ := hheld
        rw [hs.balance_marker hr', hs.balance_marker hr', neg_inj, hs.value_current_eq_iff hr']
        exact hsame _ (hmarked h' r' hr' hk)
      · have hne : ∀ h' r', s.constraints.get? h' = some r' → k ≠ h'.marker :=
          fun h' r' hr' heq => hheld ⟨h', r', hr', heq⟩
        rw [balance_of_forall_ne v (hrestricted k hk) hne,
          balance_of_forall_ne v' (hrestricted k hk) hne]
    have hvalue := hsettles _ _ (hs.equations_balance v) (hs.equations_balance v') hbalanced
    rw [hequation, hequation, hbalanced _ hmarker, add_left_inj] at hvalue
    rwa [← c.value_eq, ← c.value_eq, value_balance hc, value_balance hc, c.value_eq w, c.value_eq w,
      add_left_inj] at hvalue
  · intro hfollows v v' hv hv' hsame
    rw [equations_iff] at hv hv'
    rw [hequation, hequation, hsame _ hmarker, hfollows v v' fun b hb => ?_]
    obtain ⟨h', r', hr', rfl, hall⟩ := hsettled b hb
    rw [← hs.value_current_eq_iff hr']
    have hequal : (h'.other.elim 0 v) = h'.other.elim 0 v' := by
      cases hk : h'.other with
      | none => rfl
      | some k => exact hsame k (hall k (Handle.mem_markers.mpr (.inr hk)))
    have hleft := hv h' r' hr'
    have hright := hv' h' r' hr'
    rw [Constraint.equation, hequal, hsame _ (hall _ List.mem_cons_self)] at hleft
    rw [Constraint.equation] at hright
    linarith

/-- The symbols settle an equation without another symbol if the values of all constraints settle
that of its own one. -/
theorem Tidy.settles_iff (hc : c.OverLayout) (hfits : h.Fits c.relation w.isRequired)
    (hother : h.other = none) :
    Settles (·.unrestricted = false) s.Equations (c.equation h) ↔ (c.shape w).Follows s.shapes := by
  refine hs.settles_iff_follows hc hother (fun _ => id) (hfits.unrestricted List.mem_cons_self)
    (fun b hb => ?_) fun h' r' hr' _ => mem_shapes.mpr ⟨h', r', hr', rfl⟩
  obtain ⟨h', r', hr', rfl⟩ := mem_shapes.mp hb
  exact ⟨h', r', hr', rfl, fun k hk => (hs.fits h' r' hr').unrestricted hk⟩

/-- An equation is hidden if the shape of the constraint is. -/
theorem Tidy.hidden_iff (hc : c.OverLayout) (hfits : h.Fits c.relation w.isRequired) :
    h.Hidden s.Equations (c.equation h) ↔ (c.shape w).Hidden s.shapes := by
  unfold Handle.Hidden Shape.Hidden
  rw [hfits.dummy_iff]
  refine and_congr_right fun hfixed => ?_
  have hdummy := hfits.dummy_iff.mpr hfixed
  have hother := hfits.other_of_dummy hdummy
  have hdummies : Settles (·.dummy = true) s.Equations (c.equation h) ↔
      (c.shape w).Follows (s.shapes.filter Shape.fixed) := by
    refine hs.settles_iff_follows hc hother (fun _ => Key.unrestricted_of_dummy) hdummy
      (fun b hb => ?_) fun h' r' hr' hk => ?_
    · obtain ⟨hb, hb'⟩ := List.mem_filter.mp hb
      obtain ⟨h', r', hr', rfl⟩ := mem_shapes.mp hb
      have hdummy' := (hs.fits h' r' hr').dummy_iff.mpr hb'
      refine ⟨h', r', hr', rfl, fun k hk => ?_⟩
      rcases Handle.mem_markers.mp hk with rfl | hk
      · exact hdummy'
      · cases ((hs.fits h' r' hr').other_of_dummy hdummy').symm.trans hk
    · exact List.mem_filter.mpr ⟨mem_shapes.mpr ⟨h', r', hr', rfl⟩,
        (hs.fits h' r' hr').dummy_iff.mp hk⟩
  rw [hs.settles_iff hc hfits hother, hdummies]

end Balance

end State

/-! ## Symbols that are given out -/

namespace Key

variable {n : Nat}

theorem allocate_eq_ok {kind : Kind} {k : Key} (h : allocate kind false n = .ok k) :
    n ≤ maxIndex ∧ k = ofIndex kind false n := by
  by_cases hn : n ≤ maxIndex
  · rw [allocate_of_le kind hn] at h
    exact ⟨hn, (Except.ok.inj h).symm⟩
  · rw [allocate_of_lt kind (not_le.mp hn)] at h
    cases h

/-- There are `2 ^ 27` symbols. -/
theorem maxIndex_add_one : maxIndex + 1 = 2 ^ 27 := by decide

theorem ofIndex_inj {kind kind' : Kind} {n' : Nat} (hn : n ≤ maxIndex) (hn' : n' ≤ maxIndex)
    (h : ofIndex kind false n = ofIndex kind' false n') : n = n' := by
  have hbits := maxIndex_add_one
  have hindex := congrArg (fun k => k.index.toNat) h
  simp only [ofIndex, BitVec.toNat_ofNat] at hindex
  rwa [Nat.mod_eq_of_lt (by omega), Nat.mod_eq_of_lt (by omega)] at hindex

end Key

namespace Handle

variable {c : Constraint Rat} {w : Strength Rat} {n : Nat}

/-- If there are enough symbols, a constraint gets as many as its shape asks for. -/
theorem issue_of_le (hn : n + (c.shape w).symbols ≤ Key.maxIndex + 1) :
    ∃ h : Handle, issue c.relation w.isRequired n = .ok (h, n + (c.shape w).symbols) ∧
      h.Fits c.relation w.isRequired := by
  have hfirst : ∀ kind, Key.allocate kind false n = .ok (.ofIndex kind false n) := fun kind =>
    Key.allocate_of_le kind (by unfold Shape.symbols at hn; split at hn <;> omega)
  unfold Shape.symbols Constraint.shape at hn ⊢
  cases hrequired : w.isRequired with
  | true =>
    rw [if_pos rfl]
    cases c.relation with
    | lessOrEqual => exact ⟨_, issue_eq_ok_single rfl (hfirst _), rfl, rfl⟩
    | equal => exact ⟨_, issue_eq_ok_single rfl (hfirst _), rfl, rfl⟩
  | false =>
    rw [hrequired, if_neg Bool.false_ne_true] at hn
    have hsecond : Key.allocate .error false (n + 1) = .ok (.ofIndex .error false (n + 1)) :=
      Key.allocate_of_le .error (by omega)
    rw [if_neg Bool.false_ne_true]
    cases c.relation with
    | lessOrEqual => exact ⟨_, issue_eq_ok_pair rfl (hfirst _) hsecond, rfl, _, rfl, rfl⟩
    | equal => exact ⟨_, issue_eq_ok_pair rfl (hfirst _) hsecond, rfl, _, rfl, rfl⟩

/-- A symbol that is given out has the next index. -/
theorem eq_of_issue_single {relation : Relation} {required : Bool} {kind : Kind} {h : Handle}
    {n' : Nat} (hkinds : kinds relation required = (kind, none))
    (h' : issue relation required n = .ok (h, n')) : h = ⟨.ofIndex kind false n, none⟩ := by
  cases hk : Key.allocate kind false n with
  | error cause =>
    rw [issue_eq_error hkinds hk] at h'
    cases h'
  | ok k =>
    rw [issue_eq_ok_single hkinds hk] at h'
    cases h'
    rw [(Key.allocate_eq_ok hk).2]

/-- Two symbols that are given out have the next indices. -/
theorem eq_of_issue_pair {relation : Relation} {required : Bool} {kind kind' : Kind} {h : Handle}
    {n' : Nat} (hkinds : kinds relation required = (kind, some kind'))
    (h' : issue relation required n = .ok (h, n')) :
    h = ⟨.ofIndex kind false n, some (.ofIndex kind' false (n + 1))⟩ ∧ n + 1 ≤ Key.maxIndex := by
  cases hk : Key.allocate kind false n with
  | error cause =>
    rw [issue_eq_error hkinds hk] at h'
    cases h'
  | ok k =>
    cases hk' : Key.allocate kind' false (n + 1) with
    | error cause =>
      rw [issue_eq_error_pair hkinds hk hk'] at h'
      cases h'
    | ok k' =>
      rw [issue_eq_ok_pair hkinds hk hk'] at h'
      cases h'
      obtain ⟨hn, heq⟩ := Key.allocate_eq_ok hk'
      exact ⟨by rw [(Key.allocate_eq_ok hk).2, heq], hn⟩

/-- If there are not enough symbols, a constraint gets none. -/
theorem issue_of_lt (hn : Key.maxIndex + 1 < n + (c.shape w).symbols) :
    ∃ i, issue c.relation w.isRequired n = .error (.indexSpaceExhausted i) := by
  by_cases hfirst : n ≤ Key.maxIndex
  · unfold Shape.symbols Constraint.shape at hn
    dsimp only at hn
    split at hn
    · omega
    · next hsoft =>
      rw [Bool.not_eq_true] at hsoft
      have hsecond : Key.allocate .error false (n + 1) = .error (.indexSpaceExhausted (n + 1)) :=
        Key.allocate_of_lt .error (by omega)
      rw [hsoft]
      cases c.relation with
      | lessOrEqual => exact ⟨_, issue_eq_error_pair rfl (Key.allocate_of_le _ hfirst) hsecond⟩
      | equal => exact ⟨_, issue_eq_error_pair rfl (Key.allocate_of_le _ hfirst) hsecond⟩
  · have hnone : ∀ kind, Key.allocate kind false n = .error (.indexSpaceExhausted n) := fun kind =>
      Key.allocate_of_lt kind (not_le.mp hfirst)
    exact ⟨n, issue_eq_error rfl (hnone _)⟩

end Handle

namespace State

variable {s : State Rat} {c : Constraint Rat} {w : Strength Rat} {n : Nat}

/-- An insertion beside the constraints of a state gives out the symbols that the shape of the new
constraint demands, if there are enough of them. -/
theorem Tidy.reserve_cases (hs : s.Tidy) (hc : c.OverLayout) (w : Strength Rat) (n : Nat) :
    (n + Shape.demand s.shapes (c.shape w) ≤ Key.maxIndex + 1 ∧
      ∃ h, c.reserve w s.Equations n = .ok (h, n + Shape.demand s.shapes (c.shape w))) ∨
    Key.maxIndex + 1 < n + Shape.demand s.shapes (c.shape w) ∧
      ∃ i, c.reserve w s.Equations n = .error (.indexSpaceExhausted i) := by
  classical
  by_cases hn : n + (c.shape w).symbols ≤ Key.maxIndex + 1
  · obtain ⟨h, hissue, hfits⟩ := Handle.issue_of_le hn
    rw [Constraint.reserve_of_issue hissue, Tableau.spend, hs.hidden_iff hc hfits, Shape.demand]
    split
    · by_cases hlast : n + (c.shape w).symbols ≤ Key.maxIndex
      · rw [Key.allocate_of_le _ hlast]
        exact .inl ⟨by omega, h, rfl⟩
      · rw [Key.allocate_of_lt _ (not_le.mp hlast)]
        exact .inr ⟨by omega, _, rfl⟩
    · exact .inl ⟨hn, h, rfl⟩
  · obtain ⟨i, hissue⟩ := Handle.issue_of_lt (not_le.mp hn)
    refine .inr ⟨?_, i, ?_⟩
    · unfold Shape.demand
      omega
    · rw [Constraint.reserve, hissue]
      rfl

theorem reserve_of_verdict {reserved : Handle × Nat} (hverdict : s.verdict c w = .ok reserved) :
    c.reserve w s.Equations s.tableau.nextId = .ok reserved := by
  unfold verdict at hverdict
  cases hreserve : c.reserve w s.Equations s.tableau.nextId with
  | error cause =>
    rw [hreserve] at hverdict
    cases hverdict
  | ok reserved' =>
    rw [hreserve] at hverdict
    by_cases hfeasible : ∃ v, s.Feasible v ∧ (w.isRequired = true → c.Holds v)
    · exact hverdict ▸ (if_pos hfeasible).symm
    · cases (if_neg hfeasible).symm.trans hverdict

/-- For what is held no more symbols are needed than have been given out, and than there are. -/
structure Covered (s : State Rat) : Prop where
  issued : Shape.demands [] s.shapes ≤ s.tableau.nextId
  room : Shape.demands [] s.shapes ≤ Key.maxIndex + 1

namespace Covered

variable {s' : State Rat} {t : Tableau Rat} {h : Handle} {r : Record Rat}

theorem empty (config : Config Rat) : (State.empty config).Covered := ⟨Nat.zero_le _, Nat.zero_le _⟩

theorem of_eq (hs : s.Covered) (hconstraints : s'.constraints = s.constraints)
    (hid : s.tableau.nextId ≤ s'.tableau.nextId) : s'.Covered := by
  have hshapes : s'.shapes = s.shapes := by rw [shapes, shapes, hconstraints]
  exact ⟨hshapes ▸ hs.issued.trans hid, hshapes ▸ hs.room⟩

/-- A constraint that comes is given the symbols that it needs. -/
theorem register (hs : s.Covered) (htidy : s.Tidy) (hc : c.OverLayout)
    (hnew : s.constraints.get? h = none)
    (hreserve : c.reserve w s.Equations s.tableau.nextId = .ok (h, t.nextId)) :
    (({ s with tableau := t } : State Rat).register h ⟨c, w⟩).Covered := by
  have hshapes : (({ s with tableau := t } : State Rat).register h ⟨c, w⟩).shapes =
      s.shapes ++ [c.shape w] := shapes_register (s := { s with tableau := t }) hnew
  have hdemands := Shape.demands_concat s.shapes (c.shape w)
  rcases htidy.reserve_cases hc w s.tableau.nextId with ⟨hroom, h', heq⟩ | ⟨-, i, heq⟩
  · have hid : t.nextId = s.tableau.nextId + Shape.demand s.shapes (c.shape w) := by
      rw [hreserve] at heq
      injection heq with heq
      exact congrArg Prod.snd heq
    have hissued := hs.issued
    refine ⟨?_, ?_⟩ <;> rw [hshapes, hdemands]
    · exact (Nat.add_le_add_right hissued _).trans hid.ge
    · omega
  · cases hreserve.symm.trans heq

/-- A constraint that goes leaves symbols over, if it is no required equality. -/
theorem unregister (hs : s.Covered) (hr : s.constraints.get? h = some r)
    (hsoft : r.strength.isRequired = false) : (s.unregister h).Covered := by
  obtain ⟨before, after, hsplit⟩ := List.append_of_mem (Table.get?_eq_some_iff.mp hr)
  have hnodup := s.constraints.nodup_keys
  rw [hsplit, List.map_append, List.map_cons, List.nodup_middle, List.nodup_cons, List.mem_append,
    not_or] at hnodup
  have hentries : (s.unregister h).constraints.entries = before ++ after := by
    rw [unregister_eq hr, Table.entries_erase, hsplit, List.filter_append,
      List.filter_cons_of_neg (by simp), Table.filter_ne_of_notMem hnodup.1.1,
      Table.filter_ne_of_notMem hnodup.1.2]
  have hle : Shape.demands [] (s.unregister h).shapes ≤ Shape.demands [] s.shapes := by
    rw [shapes, shapes, hentries, hsplit, List.map_append, List.map_append, List.map_cons]
    refine Shape.demands_le_of_erase ?_ _ _
    unfold Shape.fixed Constraint.shape
    rw [hsoft, Bool.false_and]
  have hid : (s.unregister h).tableau = s.tableau := by rw [unregister_eq hr]
  exact ⟨hid ▸ hle.trans hs.issued, hle.trans hs.room⟩

end Covered

end State

/-! ## Runs -/

namespace Tableau

theorem spendsNothing_suggest (h : Handle) (delta : Rat) : SpendsNothing (suggest h delta) :=
  fun t => ensures_suggest_of (P := fun t' => t'.nextId = t.nextId) (fun _ => rfl)
    (fun _ => SpendsNothing.solve t) (fun _ hid _ => hid) fun _ _ hid _ =>
      (SpendsNothing.dualOptimize _).imp (fun _ _ hid' => hid'.trans hid) fun _ _ => id

end Tableau

namespace Solver

variable {s : Solver Rat} {config : Config Rat} {c : Constraint Rat} {w : Strength Rat}
  {x : Variable} {h : Handle} {r : Record Rat}

/-- What is held is covered, also in the state that an open batch goes back to. -/
structure Covered (s : Solver Rat) : Prop where
  state : s.state.Covered
  snapshot : ∀ b state, s.batch = some b → b.snapshot = some state → state.Covered

/-- What is held stays covered by an operation that fails, unless it leaves the solver poisoned. -/
theorem Covered.of_failed {s' : Solver Rat} (hs : s.Covered) (hfailed : s.Failed s')
    (hpoisoned : s'.poisoned = false) : s'.Covered := by
  rcases hfailed with htrue | ⟨n, rfl⟩
  · rw [htrue] at hpoisoned
    cases hpoisoned
  · exact ⟨hs.state, hs.snapshot⟩

/-- What gives out no symbols leaves the books, too, as they are. -/
theorem ensures_guarded_nextId {β : Type} {operation : Attempt (Tableau Rat) β}
    (hkeeps : ∀ t₀, Keeps operation (Tableau.RecoversTo · t₀)) (hrest : s.AtRest config)
    (hoperation : Tableau.SpendsNothing operation) :
    Ensures (guarded operation) s
      (fun _ s' => ∃ t : Tableau Rat, t.nextId = s.state.tableau.nextId ∧
        s' = { s with state := { s.state with tableau := t } })
      fun cause s' => (∀ i, cause ≠ .indexSpaceExhausted i) ∧ s.Failed s' := by
  have hopening : ∀ t, t = s.state.tableau ∨ t = s.state.tableau.begin →
      Ensures operation t (fun _ t' => t'.nextId = s.state.tableau.nextId)
        fun cause _ => ∀ i, cause ≠ .indexSpaceExhausted i := by
    intro t ht
    have hid : t.nextId = s.state.tableau.nextId := by rcases ht with rfl | rfl <;> rfl
    exact hid ▸ hoperation t
  refine (ensures_guarded_of hkeeps hrest hopening).imp ?_ ?_
  · rintro _ s' ⟨t, hid, rfl⟩
    exact ⟨t.commit, hid, rfl⟩
  · rintro cause s' ⟨⟨_, hcause⟩, hfailed⟩
    exact ⟨hcause, hfailed⟩

theorem ensures_insert_covered (hrest : s.AtRest config) (hs : s.Sound True True)
    (hcovered : s.Covered) (hc : c.OverLayout) (hw : 0 ≤ w.value) :
    Ensures (insert c w) s (fun _ s' => s'.Covered) fun _ s' => s.Failed s' := by
  refine (((ensures_insert_state c w s).and (ensures_insert_sound hrest hs hc fun _ => hw)).and
    (ensures_insert_verdict hrest hs hc hw)).imp ?_ fun _ _ h => h.1.2.1
  rintro h s' ⟨⟨⟨t, rfl⟩, -, -, ⟨hnew, -⟩, -⟩, hverdict⟩
  exact ⟨hcovered.state.register hs.state.tidy hc hnew (State.reserve_of_verdict hverdict),
    hcovered.snapshot⟩

theorem ensures_remove_covered (hrest : s.AtRest config) (hcovered : s.Covered)
    (hr : s.state.constraints.get? h = some r) (hsoft : r.strength.isRequired = false) :
    Ensures (remove h) s (fun gone s' => if gone then s'.Covered else s.Failed s')
      fun _ _ => False := by
  refine ensures_remove_of (fun hnone => absurd (hnone.symm.trans hr) nofun) fun r' hr' => ?_
  cases hr'.symm.trans hr
  refine (ensures_guarded_nextId
    (fun _ => Tableau.keeps_removeConstraint h r.strength s.isBatching) hrest
    (Tableau.SpendsNothing.removeConstraint h r.strength s.isBatching)).imp ?_ fun _ _ => And.right
  rintro _ _ ⟨t, hid, rfl⟩
  have hkept : ({ s.state with tableau := t } : State Rat).Covered :=
    hcovered.state.of_eq rfl hid.ge
  exact ⟨hkept.unregister hr hsoft, hcovered.snapshot⟩

theorem ensures_startEdit_covered (hrest : s.AtRest config) (hs : s.Sound True True)
    (hcovered : s.Covered) (x : Variable) (hw : 0 ≤ w.value) :
    Ensures (startEdit x w) s (fun _ s' => s'.Covered) fun _ s' => s.Failed s' := by
  refine ensures_startEdit_of (fun _ => .inr ⟨s.failures, rfl⟩) (fun _ => .inr ⟨s.failures, rfl⟩)
    fun _ _ =>
      (ensures_insert_covered hrest hs hcovered (x.overLayout_heldAt _) hw).imp ?_ fun _ _ => id
  exact fun _ _ h => ⟨h.state.of_eq rfl le_rfl, h.snapshot⟩

theorem ensures_stopEdit_covered (hrest : s.AtRest config) (hs : s.Sound True True)
    (hcovered : s.Covered) (x : Variable) :
    Ensures (stopEdit x) s (fun _ s' => s'.Covered) fun _ s' => s.Failed s' := by
  refine ensures_stopEdit_of (fun _ => .inr ⟨s.failures, rfl⟩) fun e he => ?_
  obtain ⟨r, hr, -, hsoft⟩ := hs.state.tidy.edit x e he
  refine (ensures_remove_covered hrest hcovered hr hsoft).imp ?_ fun _ _ => False.elim
  intro gone s' hdone
  cases gone with
  | false => exact hdone
  | true => exact ⟨State.Covered.of_eq hdone.state rfl le_rfl, hdone.snapshot⟩

theorem ensures_suggest_covered (hrest : s.AtRest config) (hcovered : s.Covered) (x : Variable)
    (target : Rat) :
    Ensures (suggest x target) s (fun _ s' => s'.Covered) fun _ s' => s.Failed s' := by
  refine ensures_suggest_of (fun _ => .inr ⟨s.failures, rfl⟩) fun e _ =>
    (ensures_guarded_nextId (fun _ => Tableau.keeps_suggest e.handle _) hrest
      (Tableau.spendsNothing_suggest e.handle _)).imp ?_ fun _ _ => And.right
  rintro _ s' ⟨t, hid, rfl⟩
  exact ⟨hcovered.state.of_eq rfl hid.ge, hcovered.snapshot⟩

theorem Covered.openBatch (hcovered : s.Covered) :
    Ensures openBatch s (fun _ s' => s'.Covered) fun _ s' => s'.Covered := by
  refine ensures_openBatch_of (fun _ => hcovered) fun _ b hb => ⟨hcovered.state, ?_⟩
  rintro _ state ⟨⟩ hsnapshot
  rw [hb state hsnapshot]
  exact hcovered.state

theorem Covered.closeBatch (hcovered : s.Covered) :
    Ensures closeBatch s (fun _ s' => s'.Covered)
      fun _ s' => s'.poisoned = false → s'.Covered := by
  refine ensures_closeBatch_of (fun _ _ => hcovered) fun b hb =>
    (Tableau.SpendsNothing.solve s.state.tableau).imp
      (fun _ t hid => ⟨hcovered.state.of_eq rfl hid.ge, fun _ _ => nofun⟩)
      fun _ _ _ => ⟨fun state hsnapshot _ => ?_, fun _ => nofun⟩
  exact ⟨hcovered.snapshot b state hb hsnapshot, fun _ _ => nofun⟩

/-- Operations keep what is held covered, unless they leave the solver poisoned. Only a removal may
set free what was needed in place of symbols. -/
theorem covered_step (hrest : s.AtRest config)
    (hs : s.poisoned = false → s.Sound True True ∧ s.Covered) {o : Operation Rat}
    (ho : o.Lawful True) (hkept : ∀ h, o ≠ .remove h) (hpoisoned : (s.step o).2.poisoned = false) :
    (s.step o).2.Covered := by
  by_cases hclear : o = .clear
  · rw [hclear]
    exact ⟨⟨Nat.zero_le _, Nat.zero_le _⟩, fun _ _ hopen => by cases hopen⟩
  obtain ⟨hs, hcovered⟩ := hs (Bool.eq_false_iff.mpr fun htrue =>
    Bool.eq_false_iff.mp hpoisoned ((keeps_poisoned hclear).outcome htrue))
  have hensures : Ensures (perform o) s (fun _ s' => s'.poisoned = false → s'.Covered)
      fun _ s' => s'.poisoned = false → s'.Covered := by
    cases o with
    | insert c w =>
      exact ensures_map _ |>.mpr ((ensures_insert_covered hrest hs hcovered ho.1 (ho.2 trivial)).imp
        (fun _ _ h _ => h) fun _ _ => hcovered.of_failed)
    | remove h => exact absurd rfl (hkept h)
    | startEdit x w =>
      exact ensures_bind _ |>.mpr ((ensures_startEdit_covered hrest hs hcovered x (ho trivial)).imp
        (fun _ _ h _ => h) fun _ _ => hcovered.of_failed)
    | stopEdit x =>
      exact ensures_bind _ |>.mpr ((ensures_stopEdit_covered hrest hs hcovered x).imp
        (fun _ _ h _ => h) fun _ _ => hcovered.of_failed)
    | suggest x target =>
      exact ensures_bind _ |>.mpr ((ensures_suggest_covered hrest hcovered x target).imp
        (fun _ _ h _ => h) fun _ _ => hcovered.of_failed)
    | openBatch =>
      exact ensures_bind _ |>.mpr (hcovered.openBatch.imp (fun _ _ h _ => h) fun _ _ h _ => h)
    | closeBatch =>
      exact ensures_bind _ |>.mpr (hcovered.closeBatch.imp (fun _ _ h _ => h) fun _ _ => id)
    | clear => exact absurd rfl hclear
  exact hensures.after hpoisoned

/-- A run without removals keeps a solver sound and what it holds covered, unless it leaves the
solver poisoned. -/
theorem covered_run_of_covered (hepsilon : config.epsilon = 0) {os : List (Operation Rat)}
    (hos : ∀ o ∈ os, o.Lawful True ∧ ∀ h, o ≠ .remove h) (hrest : s.AtRest config)
    (hs : s.poisoned = false → s.Sound True True ∧ s.Covered)
    (hpoisoned : (s.run os).poisoned = false) :
    (s.run os).Sound True True ∧ (s.run os).Covered := by
  induction os generalizing s with
  | nil => exact hs hpoisoned
  | cons o os ih =>
    obtain ⟨ho, hkept⟩ := hos o List.mem_cons_self
    have hsparing : s.Sparing [o] :=
      sparing_of_forall_ne (fun o' ho' => List.mem_singleton.mp ho' ▸ hkept) s
    refine ih (fun o ho => hos o (List.mem_cons_of_mem _ ho)) ((keeps_perform o).outcome hrest)
      (fun hstep => ⟨?_, covered_step hrest hs ho hkept hstep⟩) hpoisoned
    exact sound_step (fun _ => hepsilon) hrest (fun h => (hs h).1) ho (fun _ _ => hsparing.1) hstep

/-- A new solver works. -/
theorem working_ofConfig (hepsilon : config.epsilon = 0) : (ofConfig config).Working config :=
  ⟨atRest_ofConfig config, sound_ofConfig fun _ => hepsilon, rfl⟩

/-- After a run without removals, a solver that is not poisoned works, and what it holds is
covered. -/
theorem covered_run (hepsilon : config.epsilon = 0) {os : List (Operation Rat)}
    (hos : ∀ o ∈ os, o.Lawful True ∧ ∀ h, o ≠ .remove h)
    (hpoisoned : ((ofConfig config).run os).poisoned = false) :
    ((ofConfig config).run os).Working config ∧ ((ofConfig config).run os).Covered := by
  obtain ⟨hsound, hcovered⟩ := covered_run_of_covered hepsilon hos (atRest_ofConfig config)
    (fun _ => ⟨(working_ofConfig hepsilon).sound, .empty config, fun _ _ hopen => by cases hopen⟩)
    hpoisoned
  exact ⟨⟨Reachable.atRest ⟨os, rfl⟩, hsound, hpoisoned⟩, hcovered⟩

end Solver

end Cassowary
