import Mathlib.Algebra.BigOperators.Intervals
import Mathlib.Algebra.Order.BigOperators.Group.Finset
import Cassowary.Columns
import Cassowary.Proofs.Demand
import Cassowary.Proofs.Reduction

/-!
# What columns ask for

The constraints on columns are read as statements about the left edges and widths that they have at
an assignment. The edges follow from the widths, and the widths add up to what the gaps leave of the
total width. Conversely, any widths with this sum can be laid side by side. So the required
constraints can be met just if the least widths and the gaps have room in the total width, and all
constraints can be met then: all columns have the same width.

The requirements come in an order: first the ends and the chain, then the columns one by one. What
is said here is said of the constraints up to some column, so that it also tells about the
requirements while they are still being inserted.

## Main definitions

* `Columns.upTo` — the requirements up to a column
* `Columns.Fits` — edges and widths that meet the required ones of them
* `Columns.lay` — columns of given widths, side by side
* `penalty` — what the violations of constraints cost

## Main results

* `Columns.holds_upTo_iff`, `Columns.penalty_upTo` — the requirements, read as statements on widths
* `Columns.Fits.sum_width`, `Columns.fits_lay` — the sum of the widths is all that matters
* `Columns.exists_fits_iff` — whether the required constraints can be met
-/

namespace Cassowary

open Finset (range)

@[simp] theorem Assignment.valueOf_external (v : Assignment Rat) (i : Nat) :
    v.valueOf (.external i) = v (Variable.external i).key := rfl

namespace Strength

theorem value_medium : (medium : Strength Rat).value = 100 := by norm_num [medium]

theorem value_strong : (strong : Strength Rat).value = 100000 := by norm_num [strong]

theorem medium_nonneg : 0 ≤ (medium : Strength Rat).value := by
  rw [value_medium]
  norm_num

theorem strong_nonneg : 0 ≤ (strong : Strength Rat).value := by
  rw [value_strong]
  norm_num

theorem isRequired_medium : (medium : Strength Rat).isRequired = false := by decide +kernel

theorem isRequired_strong : (strong : Strength Rat).isRequired = false := by decide +kernel

end Strength

/-- What the violations of the constraints cost that may be violated. -/
def penalty (cs : List (Constraint Rat × Strength Rat)) (v : Assignment Rat) : Rat :=
  ((cs.filter fun e => !e.2.isRequired).map fun e => e.2.value * e.1.violation v).sum

theorem State.cost_eq_penalty (s : State Rat) : s.cost = penalty s.held := rfl

theorem penalty_append (cs cs' : List (Constraint Rat × Strength Rat)) (v : Assignment Rat) :
    penalty (cs ++ cs') v = penalty cs v + penalty cs' v := by
  rw [penalty, List.filter_append, List.map_append, List.sum_append]
  rfl

theorem penalty_of_required {cs : List (Constraint Rat × Strength Rat)}
    (hcs : ∀ e ∈ cs, e.2.isRequired = true) (v : Assignment Rat) : penalty cs v = 0 := by
  have hnone : cs.filter (fun e => !e.2.isRequired) = [] :=
    List.filter_eq_nil_iff.mpr fun e he => by simp [hcs e he]
  rw [penalty, hnone]
  rfl

/-- The left edge of a column. -/
def Assignment.left (v : Assignment Rat) (i : Nat) : Rat := v (Columns.left i).key

/-- The width of a column. -/
def Assignment.width (v : Assignment Rat) (i : Nat) : Rat := v (Columns.width i).key

namespace Columns

variable {c : Columns Rat} {v : Assignment Rat} {b i j : Nat} {W : Nat → Rat}

/-! ## Variables -/

theorem width_inj (hi : i < 2 ^ 26) (hj : j < 2 ^ 26) (h : width i = width j) : i = j := by
  have hindex : BitVec.ofNat 27 (2 * i + 1) = BitVec.ofNat 27 (2 * j + 1) :=
    congrArg (fun x : Variable => x.key.index) h
  have hnat := congrArg BitVec.toNat hindex
  rw [BitVec.toNat_ofNat, BitVec.toNat_ofNat] at hnat
  omega

/-! ## The requirements one by one -/

/-- The first column starts at zero. -/
def starts : Constraint Rat := .ofFormulas (.var (left 0)) .equal (.number 0)

/-- The last column ends at the total width. -/
def stops (c : Columns Rat) : Constraint Rat :=
  .ofFormulas (.add (.var (left (c.count - 1))) (.var (width (c.count - 1)))) .equal (.number c.total)

/-- A column starts a gap after the one before it. -/
def link (c : Columns Rat) (i : Nat) : Constraint Rat :=
  .ofFormulas (.var (left (i + 1))) .equal (.add (.add (.var (left i)) (.var (width i))) (.number c.gap))

/-- A column has the least width. -/
def bound (c : Columns Rat) (i : Nat) : Constraint Rat :=
  .ofFormulas (.var (width i)) .greaterOrEqual (.number c.least)

/-- A column is as wide as the first one. -/
def share (i : Nat) : Constraint Rat := .ofFormulas (.var (width i)) .equal (.var (width 0))

/-- The constraints on the width of one column. -/
def column (c : Columns Rat) (i : Nat) : List (Constraint Rat × Strength Rat) :=
  if width i = width 0 then [(c.bound i, .required)]
  else [(c.bound i, .required), (share i, .medium)]

/-- The constraints on the widths of the columns up to one of them, and those on all the edges. -/
def upTo (c : Columns Rat) (b : Nat) : List (Constraint Rat × Strength Rat) :=
  c.ends ++ c.chain ++ (List.range b).flatMap c.column

theorem requirements_eq (hn : c.count ≠ 0) : c.requirements = c.upTo c.count := if_neg hn

theorem upTo_succ (c : Columns Rat) (b : Nat) : c.upTo (b + 1) = c.upTo b ++ c.column b := by
  simp [upTo, List.range_succ]

theorem holds_starts : starts.Holds v ↔ v.left 0 = 0 :=
  Constraint.holds_ofFormulas_equal (by simp) (by simp)

theorem holds_stops :
    c.stops.Holds v ↔ v.left (c.count - 1) + v.width (c.count - 1) = c.total :=
  Constraint.holds_ofFormulas_equal (by simp) (by simp)

theorem holds_link : (c.link i).Holds v ↔ v.left (i + 1) = v.left i + v.width i + c.gap :=
  Constraint.holds_ofFormulas_equal (by simp) (by simp)

theorem holds_bound : (c.bound i).Holds v ↔ c.least ≤ v.width i :=
  Constraint.holds_ofFormulas_greaterOrEqual (by simp) (by simp)

theorem violation_share : (share i).violation v = |v.width i - v.width 0| :=
  Constraint.violation_ofFormulas_equal (by simp) (by simp)

/-! ## All requirements up to a column -/

/-- Edges and widths that meet the required constraints, of those on widths only the first ones. -/
structure Fits (c : Columns Rat) (b : Nat) (v : Assignment Rat) : Prop where
  starts : v.left 0 = 0
  stops : v.left (c.count - 1) + v.width (c.count - 1) = c.total
  link : ∀ i, i + 1 < c.count → v.left (i + 1) = v.left i + v.width i + c.gap
  bound : ∀ i < b, c.least ≤ v.width i

theorem mem_upTo {e : Constraint Rat × Strength Rat} : e ∈ c.upTo b ↔
    e = (Columns.starts, .required) ∨ e = (c.stops, .required) ∨
      (∃ i, i + 1 < c.count ∧ e = (c.link i, .required)) ∨
      (∃ i < b, e = (c.bound i, .required)) ∨
      ∃ i < b, width i ≠ width 0 ∧ e = (share i, .medium) := by
  have hcolumn : ∀ i, e ∈ c.column i ↔
      e = (c.bound i, .required) ∨ width i ≠ width 0 ∧ e = (share i, .medium) := by
    intro i
    unfold column
    split <;> simp_all
  have hends : e ∈ c.ends ↔ e = (Columns.starts, .required) ∨ e = (c.stops, .required) := by
    simp [ends, Columns.starts, stops]
  have hchain : e ∈ c.chain ↔ ∃ i, i + 1 < c.count ∧ e = (c.link i, .required) := by
    simp only [chain, List.mem_map, List.mem_range, Nat.lt_sub_iff_add_lt, eq_comm (a := e)]
    exact Iff.rfl
  simp only [upTo, List.mem_append, List.mem_flatMap, List.mem_range, hends, hchain, hcolumn,
    and_or_left, exists_or, or_assoc]

theorem holds_upTo_iff :
    (∀ e ∈ c.upTo b, e.2.isRequired = true → e.1.Holds v) ↔ c.Fits b v := by
  have hrequired := Strength.isRequired_required
  constructor
  · intro h
    refine ⟨?_, ?_, fun i hi => ?_, fun i hi => ?_⟩
    · exact holds_starts.mp (h (Columns.starts, .required) (mem_upTo.mpr (.inl rfl)) hrequired)
    · exact holds_stops.mp (h (c.stops, .required) (mem_upTo.mpr (.inr (.inl rfl))) hrequired)
    · exact holds_link.mp
        (h (c.link i, .required) (mem_upTo.mpr (.inr (.inr (.inl ⟨i, hi, rfl⟩)))) hrequired)
    · exact holds_bound.mp
        (h (c.bound i, .required) (mem_upTo.mpr (.inr (.inr (.inr (.inl ⟨i, hi, rfl⟩)))))
          hrequired)
  · intro hv e he he'
    rcases mem_upTo.mp he with rfl | rfl | ⟨i, hi, rfl⟩ | ⟨i, hi, rfl⟩ | ⟨i, -, -, rfl⟩
    · exact holds_starts.mpr hv.starts
    · exact holds_stops.mpr hv.stops
    · exact holds_link.mpr (hv.link i hi)
    · exact holds_bound.mpr (hv.bound i hi)
    · cases Strength.isRequired_medium.symm.trans he'

theorem overLayout_of_mem_upTo {e : Constraint Rat × Strength Rat} (he : e ∈ c.upTo b) :
    e.1.OverLayout ∧ 0 ≤ e.2.value := by
  rcases mem_upTo.mp he with rfl | rfl | ⟨i, -, rfl⟩ | ⟨i, -, rfl⟩ | ⟨i, -, -, rfl⟩
  · exact ⟨Constraint.overLayout_reduce _ _ _, Strength.required_nonneg⟩
  · exact ⟨Constraint.overLayout_reduce _ _ _, Strength.required_nonneg⟩
  · exact ⟨Constraint.overLayout_reduce _ _ _, Strength.required_nonneg⟩
  · exact ⟨Constraint.overLayout_reduce _ _ _, Strength.required_nonneg⟩
  · exact ⟨Constraint.overLayout_reduce _ _ _, Strength.medium_nonneg⟩

/-- The ends and the chain are required equalities. -/
theorem fixed_of_mem_edges {e : Constraint Rat × Strength Rat} (he : e ∈ c.ends ++ c.chain) :
    (e.1.shape e.2).fixed = true := by
  have he : e ∈ c.upTo 0 := List.mem_append_left _ he
  rcases mem_upTo.mp he with rfl | rfl | ⟨i, -, rfl⟩ | ⟨i, hi, -⟩ | ⟨i, hi, -⟩
  · exact Bool.and_eq_true_iff.mpr ⟨Strength.isRequired_required, rfl⟩
  · exact Bool.and_eq_true_iff.mpr ⟨Strength.isRequired_required, rfl⟩
  · exact Bool.and_eq_true_iff.mpr ⟨Strength.isRequired_required, rfl⟩
  · exact absurd hi (Nat.not_lt_zero i)
  · exact absurd hi (Nat.not_lt_zero i)

theorem fixed_of_mem_column {e : Constraint Rat × Strength Rat} (he : e ∈ c.column i) :
    (e.1.shape e.2).fixed = false := by
  have hcases : e = (c.bound i, .required) ∨ e = (share i, .medium) := by
    unfold column at he
    split at he <;> simp_all
  rcases hcases with rfl | rfl
  · exact Bool.and_eq_false_iff.mpr (.inr rfl)
  · exact Bool.and_eq_false_iff.mpr (.inl Strength.isRequired_medium)

/-! ## What the requirements cost -/

theorem penalty_column : penalty (c.column i) v = 100 * |v.width i - v.width 0| := by
  have hrequired : ∀ e ∈ [(c.bound i, (Strength.required : Strength Rat))],
      e.2.isRequired = true := fun e he => by
    rw [List.mem_singleton.mp he]
    exact Strength.isRequired_required
  unfold column
  split
  · next heq => rw [penalty_of_required hrequired, Assignment.width, Assignment.width, heq]; simp
  · rw [← List.singleton_append, penalty_append, penalty_of_required hrequired, zero_add, penalty]
    simp [Strength.isRequired_medium, Strength.value_medium, violation_share]

theorem penalty_upTo :
    penalty (c.upTo b) v = ∑ i ∈ range b, 100 * |v.width i - v.width 0| := by
  induction b with
  | zero =>
    refine penalty_of_required (fun e he => ?_) v
    have hfixed := fixed_of_mem_edges (c := c) (by simpa [upTo] using he)
    exact (Bool.and_eq_true_iff.mp hfixed).1
  | succ b ih => rw [upTo_succ, penalty_append, ih, penalty_column, Finset.sum_range_succ]

/-! ## Widths are all that matters -/

/-- What the gaps leave of the total width. -/
def room (c : Columns Rat) : Rat := c.total - (c.count - 1) * c.gap

/-- Each edge comes after the widths and gaps to its left. -/
theorem Fits.left_eq (h : c.Fits b v) (hi : i < c.count) :
    v.left i = ∑ j ∈ range i, (v.width j + c.gap) := by
  induction i with
  | zero => exact h.starts
  | succ i ih =>
    rw [h.link i hi, ih (Nat.lt_of_succ_lt hi), Finset.sum_range_succ]
    ring

/-- The widths fill the room there is. -/
theorem Fits.sum_width (h : c.Fits b v) (hn : c.count ≠ 0) :
    ∑ i ∈ range c.count, v.width i = c.room := by
  obtain ⟨n, hcount⟩ := Nat.exists_eq_succ_of_ne_zero hn
  have hstops := h.stops
  rw [h.left_eq (by omega), hcount, Nat.succ_sub_one, Finset.sum_add_distrib, Finset.sum_const,
    Finset.card_range, nsmul_eq_mul] at hstops
  rw [room, hcount, Finset.sum_range_succ]
  push_cast
  linarith

/-- Columns of given widths, side by side. -/
def lay (c : Columns Rat) (W : Nat → Rat) : Assignment Rat := fun k =>
  let i := k.index.toNat / 2
  if k.index.toNat % 2 = 0 then ∑ j ∈ range i, (W j + c.gap) else W i

theorem left_lay (hi : i < 2 ^ 26) : (c.lay W).left i = ∑ j ∈ range i, (W j + c.gap) := by
  have hindex : (left i).key.index.toNat = 2 * i := by
    show (BitVec.ofNat 27 (2 * i)).toNat = _
    rw [BitVec.toNat_ofNat]
    omega
  simp [Assignment.left, lay, hindex]

theorem width_lay (hi : i < 2 ^ 26) : (c.lay W).width i = W i := by
  have hindex : (width i).key.index.toNat = 2 * i + 1 := by
    show (BitVec.ofNat 27 (2 * i + 1)).toNat = _
    rw [BitVec.toNat_ofNat]
    omega
  have hodd : (2 * i + 1) % 2 ≠ 0 := by omega
  have hhalf : (2 * i + 1) / 2 = i := by omega
  rw [Assignment.width, lay, hindex, if_neg hodd, hhalf]

/-- Columns whose widths fill the room can be laid side by side. -/
theorem fits_lay (hn : c.count ≠ 0) (hcount : c.count ≤ 2 ^ 26) (hb : b ≤ c.count)
    (hsum : ∑ i ∈ range c.count, W i = c.room) (hleast : ∀ i < b, c.least ≤ W i) :
    c.Fits b (c.lay W) := by
  refine ⟨?_, ?_, fun i hi => ?_, fun i hi => ?_⟩
  · rw [left_lay (by norm_num), Finset.range_zero, Finset.sum_empty]
  · obtain ⟨n, hsucc⟩ := Nat.exists_eq_succ_of_ne_zero hn
    rw [room, hsucc, Finset.sum_range_succ] at hsum
    rw [left_lay (by omega), width_lay (by omega), hsucc, Nat.succ_sub_one, Finset.sum_add_distrib,
      Finset.sum_const, Finset.card_range, nsmul_eq_mul]
    push_cast at hsum
    linarith
  · rw [left_lay (by omega), left_lay (by omega), width_lay (by omega), Finset.sum_range_succ]
    ring
  · rw [width_lay (by omega)]
    exact hleast i hi

/-- Columns that are equally wide fill the room. -/
theorem sum_equal (hn : c.count ≠ 0) : ∑ _ ∈ range c.count, c.room / c.count = c.room := by
  rw [Finset.sum_const, Finset.card_range, nsmul_eq_mul,
    mul_div_cancel₀ _ (Nat.cast_ne_zero.mpr hn)]

theorem least_le_equal_iff (hn : c.count ≠ 0) :
    c.least ≤ c.room / c.count ↔ c.count * c.least + (c.count - 1) * c.gap ≤ c.total := by
  have hpos : (0 : Rat) < c.count := Nat.cast_pos.mpr (Nat.pos_of_ne_zero hn)
  rw [le_div_iff₀ hpos, room, le_sub_iff_add_le, mul_comm]

/-- The required constraints can be met if the least widths and the gaps have room in the total
width, and only then. -/
theorem exists_fits_iff (hn : c.count ≠ 0) (hcount : c.count ≤ 2 ^ 26) :
    (∃ v, c.Fits c.count v) ↔ c.count * c.least + (c.count - 1) * c.gap ≤ c.total := by
  rw [← least_le_equal_iff hn]
  constructor
  · rintro ⟨v, hv⟩
    have hpos : (0 : Rat) < c.count := Nat.cast_pos.mpr (Nat.pos_of_ne_zero hn)
    have hsum := Finset.card_nsmul_le_sum (range c.count) v.width c.least fun i hi =>
      hv.bound i (Finset.mem_range.mp hi)
    rw [hv.sum_width hn, Finset.card_range, nsmul_eq_mul] at hsum
    rwa [le_div_iff₀ hpos, mul_comm]
  · intro hleast
    exact ⟨c.lay fun _ => c.room / c.count,
      fits_lay hn hcount le_rfl (sum_equal hn) fun _ _ => hleast⟩

/-- Without a bound on the last column they can always be met. -/
theorem exists_fits_of_lt (hcount : c.count ≤ 2 ^ 26) (hb : b < c.count) : ∃ v, c.Fits b v := by
  -- The last column takes what the others leave
  obtain ⟨n, hsucc⟩ := Nat.exists_eq_succ_of_ne_zero (Nat.ne_zero_of_lt hb)
  refine ⟨c.lay fun i => if i < n then c.least else c.room - n * c.least,
    fits_lay (Nat.ne_zero_of_lt hb) hcount hb.le ?_ fun i hi => ?_⟩
  · rw [hsucc, Finset.sum_range_succ, Finset.sum_congr rfl fun i hi =>
      if_pos (Finset.mem_range.mp hi), Finset.sum_const, Finset.card_range, nsmul_eq_mul,
      if_neg (lt_irrefl n)]
    ring
  · rw [if_pos (by omega)]

end Columns

end Cassowary
