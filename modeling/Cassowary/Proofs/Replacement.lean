import Mathlib.Algebra.Order.Ring.Abs
import Cassowary.Proofs.Row

/-!
# Replacing a key with a tolerance

A key is replaced by adding the replacement term by term, and a sum that counts as zero leaves no
term. Where the tolerance is not zero the value of the row can move by that. Each key of the
replacement is added to once, so it costs at most one coefficient below the tolerance: what is lost
is bounded by the tolerance and the values of the keys of the replacement.

## Main definitions

* `Scalar.loss` — what settling adds to a number
* `Row.replaced` — the coefficients of a row in which a key is replaced, before any is dropped
* `Row.Replaces` — what a row in which a key was replaced has to do with the row before

## Main results

* `Row.evaluate_insertRow_settled`, `Row.evaluate_substitute_settled` — the value of a sum of rows,
  with what the dropped terms take away
* `Row.abs_sum_loss_le` — what they take away at most
* `Row.substitute_replaces` — to replace a key changes the value by what was dropped, and it leaves
  the keys that the replacement does not have where they are
-/

namespace Cassowary

namespace Scalar

/-- What settling adds to a number. -/
def loss {α : Type} [Scalar α] (x : α) : α := settled x - x

theorem abs_loss_le {tolerance : Rat} (h : 0 ≤ tolerance) (x : Tolerant tolerance) :
    |loss x| ≤ Scalar.tolerance := by
  rw [loss, settled]
  split
  · next hx =>
    rw [zero_sub, abs_neg]
    rcases Bool.or_eq_true_iff.mp hx with hbelow | hzero
    · rw [← magnitude_eq_abs]
      exact (of_decide_eq_true hbelow).le
    · rw [eq_of_beq hzero, abs_zero]
      exact h
  · rw [sub_self, abs_zero]
    exact h

end Scalar

namespace Row

variable {k : Key}

/-! ## Keys that a sum does not touch -/

section Untouched

variable {α : Type} [Scalar α]

theorem find?_remove_of_ne (r : Row α) {k' : Key} (h : k ≠ k') :
    (r.remove k').find? k = r.find? k := by
  rw [find?, find?, remove, Table.get?_erase, if_neg h]

/-- Terms whose keys are left out of sight change nothing in the order of the others. -/
theorem filter_keys_insertAll (r : Row α) {keep : Key → Bool} {ts : List (Term Key α)}
    (h : ∀ t ∈ ts, keep t.var = false) :
    (r.insertAll ts).keys.filter keep = r.keys.filter keep := by
  induction ts generalizing r with
  | nil => rfl
  | cons t rest ih =>
    rw [insertAll_cons, ih _ fun s hs => h s (List.mem_cons_of_mem _ hs)]
    exact Table.filter_keys_alter _ (h t List.mem_cons_self)

omit [Scalar α] in
theorem keys_remove (r : Row α) (k : Key) : (r.remove k).keys = r.keys.filter (· ≠ k) :=
  Table.keys_alter_none rfl

theorem nodup_scaled_terms (r : Row α) (factor : α) :
    ((r.terms.map (·.scaled factor)).map (·.var)).Nodup := by
  rw [map_var_scaled_terms]
  exact r.cells.nodup_keys

theorem filter_keys_insertRow (r other : Row α) (factor : α) :
    (r.insertRow other factor).keys.filter (fun k => !other.contains k) =
      r.keys.filter fun k => !other.contains k := by
  refine (filter_keys_insertAll _ fun t ht => ?_).trans rfl
  have hmem := List.mem_map_of_mem (f := (·.var)) ht
  rw [map_var_scaled_terms, ← contains_iff_mem_keys] at hmem
  rw [hmem, Bool.not_true]

end Untouched

/-! ## What a sum drops -/

section Dropped

variable {tolerance : Rat} {r other : Row (Tolerant tolerance)}

theorem sum_scaled_terms (r : Row (Tolerant tolerance)) (factor : Tolerant tolerance)
    (v : Key → Tolerant tolerance) :
    ((r.terms.map (·.scaled factor)).map fun t => t.coefficient * v t.var).sum =
      factor * (r.evaluate v - r.constant) := by
  rw [evaluate_eq_sum_terms, add_sub_cancel_left, ← List.sum_map_mul_left, List.map_map]
  refine congrArg List.sum (List.map_congr_left fun t _ => ?_)
  simp only [Function.comp_apply, Term.scaled, Term.withCoefficient]
  ring

theorem contains_insert_self (hs : r.scale ≠ 0) (t : Term Key (Tolerant tolerance)) :
    (r.insert t).contains t.var =
      !Scalar.negligible (r.coefficientFor t.var + t.coefficient) := by
  rw [contains, Table.contains, coefficientFor_eq, insert, Table.get?_alter_self]
  cases r.cells.get? t.var with
  | none =>
    simp only [Option.elim_none, zero_add]
    cases Scalar.negligible t.coefficient <;> rfl
  | some c =>
    simp only [Option.elim_some, add_mul, div_mul_cancel₀ _ hs]
    cases Scalar.negligible (c * r.scale + t.coefficient) <;> rfl

/-- To add terms with keys of their own merges each of them with the term that is there. -/
theorem insertAll_merges (hs : r.scale ≠ 0) {ts : List (Term Key (Tolerant tolerance))}
    (hnodup : (ts.map (·.var)).Nodup) {t : Term Key (Tolerant tolerance)} (ht : t ∈ ts) :
    (r.insertAll ts).contains t.var =
        !Scalar.negligible (r.coefficientFor t.var + t.coefficient) ∧
      (r.insertAll ts).coefficientFor t.var =
        Scalar.settled (r.coefficientFor t.var + t.coefficient) := by
  induction ts generalizing r with
  | nil => cases ht
  | cons s rest ih =>
    obtain ⟨hnot, hrest⟩ := List.nodup_cons.mp hnodup
    rw [insertAll_cons]
    rcases List.mem_cons.mp ht with rfl | ht
    · constructor
      · rw [← isSome_find?, find?_insertAll_of_notMem _ hnot, isSome_find?,
          contains_insert_self hs]
      · rw [coefficientFor_insertAll_of_notMem hnot, coefficientFor_insert_settled hs,
          if_pos rfl]
    · have hne : t.var ≠ s.var := fun heq => hnot (List.mem_map.mpr ⟨t, ht, heq⟩)
      have hmerged := ih (r := r.insert s) hs hrest ht
      rwa [coefficientFor_insert_of_ne s hne] at hmerged

/-- The value after terms with keys of their own are added. Those that come out negligible are
missing from it. -/
theorem evaluate_insertAll_settled (hs : r.scale ≠ 0) {ts : List (Term Key (Tolerant tolerance))}
    (hnodup : (ts.map (·.var)).Nodup) (v : Key → Tolerant tolerance) :
    (r.insertAll ts).evaluate v =
      r.evaluate v + (ts.map fun t => t.coefficient * v t.var).sum +
        (ts.map fun t => Scalar.loss (r.coefficientFor t.var + t.coefficient) * v t.var).sum := by
  induction ts generalizing r with
  | nil => simp [insertAll]
  | cons t rest ih =>
    obtain ⟨hnot, hrest⟩ := List.nodup_cons.mp hnodup
    have hsame :
        rest.map (fun s =>
          Scalar.loss ((r.insert t).coefficientFor s.var + s.coefficient) * v s.var) =
        rest.map fun s => Scalar.loss (r.coefficientFor s.var + s.coefficient) * v s.var := by
      refine List.map_congr_left fun s hs => ?_
      have hne : s.var ≠ t.var := fun heq => hnot (List.mem_map.mpr ⟨s, hs, heq⟩)
      rw [coefficientFor_insert_of_ne t hne]
    have hcoefficient : ∀ k', (r.insert t).coefficientFor k' =
        if k' = t.var then Scalar.settled (r.coefficientFor t.var + t.coefficient)
        else r.coefficientFor k' := by
      intro k'
      rw [coefficientFor_insert_settled hs]
      split
      · next heq => rw [heq]
      · rfl
    have hfirst : (r.insert t).evaluate v = r.evaluate v +
        (Scalar.settled (r.coefficientFor t.var + t.coefficient) - r.coefficientFor t.var) *
          v t.var :=
      evaluate_of_change v (constant_insert r t) hcoefficient
    rw [insertAll_cons, ih (r := r.insert t) hs hrest, hsame, hfirst]
    simp only [List.map_cons, List.sum_cons, Scalar.loss]
    ring

/-- What the keys of another row come to when a multiple of it is added. -/
theorem insertRow_merges (hs : r.scale ≠ 0) (factor : Tolerant tolerance) (hk : k ∈ other.keys) :
    (r.insertRow other factor).contains k =
        !Scalar.negligible (r.coefficientFor k + other.coefficientFor k * factor) ∧
      (r.insertRow other factor).coefficientFor k =
        Scalar.settled (r.coefficientFor k + other.coefficientFor k * factor) := by
  rw [← map_var_terms] at hk
  obtain ⟨t, ht, rfl⟩ := List.mem_map.mp hk
  rw [← coefficient_of_mem_terms ht]
  exact insertAll_merges (r := r.addConstant (other.constant * factor)) hs
    (nodup_scaled_terms other factor) (List.mem_map_of_mem ht)

/-- The value after a multiple of another row is added. -/
theorem evaluate_insertRow_settled (hs : r.scale ≠ 0) (other : Row (Tolerant tolerance))
    (factor : Tolerant tolerance) (v : Key → Tolerant tolerance) :
    (r.insertRow other factor).evaluate v = r.evaluate v + factor * other.evaluate v +
      (other.keys.map fun k =>
        Scalar.loss (r.coefficientFor k + other.coefficientFor k * factor) * v k).sum := by
  have hconstant : (r.addConstant (other.constant * factor)).evaluate v =
      r.evaluate v + other.constant * factor := evaluate_addConstant r _ v
  have hterms : ((other.terms.map (·.scaled factor)).map fun t => t.coefficient * v t.var).sum =
      factor * (other.evaluate v - other.constant) := sum_scaled_terms other factor v
  have hlost : (other.terms.map (·.scaled factor)).map (fun t =>
        Scalar.loss (r.coefficientFor t.var + t.coefficient) * v t.var) =
      other.keys.map fun k =>
        Scalar.loss (r.coefficientFor k + other.coefficientFor k * factor) * v k := by
    rw [← map_var_terms, List.map_map, List.map_map]
    refine List.map_congr_left fun t ht => ?_
    rw [Function.comp_apply, Function.comp_apply, ← coefficient_of_mem_terms ht]
    rfl
  have hsum := evaluate_insertAll_settled
    (r := r.addConstant (other.constant * factor)) hs (nodup_scaled_terms other factor) v
  calc (r.insertRow other factor).evaluate v
      = r.evaluate v + other.constant * factor + factor * (other.evaluate v - other.constant) +
          (other.keys.map fun k =>
            Scalar.loss (r.coefficientFor k + other.coefficientFor k * factor) * v k).sum := by
        rw [← hterms, ← hlost, ← hconstant]
        exact hsum
    _ = _ := by ring

end Dropped

/-! ## Replacing -/

/-- The coefficients of `a` where a key is replaced by `b`, before any of them is dropped. -/
def replaced {α : Type} [Scalar α] (a : Row α) (t : Term Key α) (b : Row α) (k : Key) : α :=
  (if k = t.var then 0 else a.coefficientFor k) +
    b.coefficientFor k * (a.coefficientFor t.var / t.coefficient)

/-- The row `r` is the row `a` where a key is replaced, by the row `b` that a multiple of the key is
equal to. -/
structure Replaces {tolerance : Rat} (a : Row (Tolerant tolerance))
    (t : Term Key (Tolerant tolerance)) (b r : Row (Tolerant tolerance)) : Prop where
  /-- Each key of the replacement costs at most one coefficient below the tolerance. -/
  close : ∀ v : Key → Tolerant tolerance, t.coefficient * v t.var = b.evaluate v →
    |r.evaluate v - a.evaluate v| ≤ Scalar.tolerance * (b.keys.map fun k => |v k|).sum
  /-- Where only zeros were dropped the value is the same. -/
  exact : (∀ k ∈ b.keys, r.contains k = false → a.replaced t b k = 0) →
    ∀ v : Key → Tolerant tolerance, t.coefficient * v t.var = b.evaluate v →
      r.evaluate v = a.evaluate v
  /-- What was not dropped is merged. -/
  merged : ∀ k ∈ b.keys, r.contains k = true → r.coefficientFor k = a.replaced t b k
  /-- Only the replacement can bring the key back. -/
  gone : r.contains t.var = true → b.contains t.var = true
  /-- The other keys keep their terms. -/
  kept : ∀ k, k ≠ t.var → b.contains k = false → r.find? k = a.find? k
  /-- The other keys keep their order. -/
  order : r.keys.filter (fun k => !b.contains k) =
    a.keys.filter fun k => decide (k ≠ t.var) && !b.contains k

section Substitute

variable {tolerance : Rat} {a b : Row (Tolerant tolerance)} {t : Term Key (Tolerant tolerance)}

theorem coefficientFor_remove_add (a : Row (Tolerant tolerance)) (t : Term Key (Tolerant tolerance))
    (b : Row (Tolerant tolerance)) (k : Key) :
    (a.remove t.var).coefficientFor k + b.coefficientFor k * (a.coefficientFor t.var / t.coefficient) =
      a.replaced t b k := by
  rw [coefficientFor_remove, replaced]

theorem substitute_merges (ha : a.scale ≠ 0) (hcontains : a.contains t.var = true)
    (hk : k ∈ b.keys) :
    (a.substitute t b).contains k = !Scalar.negligible (a.replaced t b k) ∧
      (a.substitute t b).coefficientFor k = Scalar.settled (a.replaced t b k) := by
  rw [substitute_of_contains hcontains, ← coefficientFor_remove_add]
  exact insertRow_merges (r := a.remove t.var) ha _ hk

/-- A row where a key is replaced has the value of the row before, but for what was dropped. -/
theorem evaluate_substitute_settled (ha : a.scale ≠ 0) (ht : t.coefficient ≠ 0)
    (hcontains : a.contains t.var = true) {v : Key → Tolerant tolerance}
    (hv : t.coefficient * v t.var = b.evaluate v) :
    (a.substitute t b).evaluate v = a.evaluate v +
      (b.keys.map fun k => Scalar.loss (a.replaced t b k) * v k).sum := by
  have hremove : (a.remove t.var).evaluate v = a.evaluate v - a.coefficientFor t.var * v t.var :=
    evaluate_remove a t.var v
  -- A multiple of the replacement stands for the term that is taken away
  have hterm : a.coefficientFor t.var / t.coefficient * b.evaluate v =
      a.coefficientFor t.var * v t.var := by
    rw [← hv, ← mul_assoc, div_mul_cancel₀ _ ht]
  have hrow := evaluate_insertRow_settled (r := a.remove t.var) ha b
    (a.coefficientFor t.var / t.coefficient) v
  have hreplaced : ∀ k, (a.remove t.var).coefficientFor k +
      b.coefficientFor k * (a.coefficientFor t.var / t.coefficient) = a.replaced t b k :=
    coefficientFor_remove_add a t b
  simp only [hremove, hterm, sub_add_cancel, hreplaced] at hrow
  rw [substitute_of_contains hcontains]
  exact hrow

/-- What settling adds to a sum is bounded by the tolerance and the values of the keys. -/
theorem abs_sum_loss_le (h : 0 ≤ tolerance) (f v : Key → Tolerant tolerance) (ks : List Key) :
    |(ks.map fun k => Scalar.loss (f k) * v k).sum| ≤
      Scalar.tolerance * (ks.map fun k => |v k|).sum := by
  induction ks with
  | nil => simp
  | cons k rest ih =>
    have hfirst : |Scalar.loss (f k) * v k| ≤ Scalar.tolerance * |v k| := by
      rw [abs_mul]
      exact mul_le_mul_of_nonneg_right (Scalar.abs_loss_le h (f k)) (abs_nonneg _)
    rw [List.map_cons, List.map_cons, List.sum_cons, List.sum_cons, mul_add]
    exact (abs_add_le _ _).trans (add_le_add hfirst ih)

/-- What replacing a key makes of a row with a term for the key. -/
theorem replaces_substitute (htolerance : 0 ≤ tolerance) (ha : a.scale ≠ 0)
    (ht : t.coefficient ≠ 0) (hcontains : a.contains t.var = true) :
    Replaces a t b (a.substitute t b) := by
  have hmerges : ∀ k ∈ b.keys,
      (a.substitute t b).contains k = !Scalar.negligible (a.replaced t b k) ∧
        (a.substitute t b).coefficientFor k = Scalar.settled (a.replaced t b k) :=
    fun _ => substitute_merges ha hcontains
  have hsettled : ∀ k ∈ b.keys, (a.substitute t b).contains k = true →
      Scalar.settled (a.replaced t b k) = a.replaced t b k := fun k hk hthere => by
    rw [(hmerges k hk).1, Bool.not_eq_true'] at hthere
    rw [Scalar.settled, if_neg (by rw [hthere]; exact Bool.false_ne_true)]
  constructor
  case close =>
    intro v hv
    have heq := evaluate_substitute_settled ha ht hcontains hv
    have hbound := abs_sum_loss_le htolerance (a.replaced t b) v b.keys
    rw [← sub_eq_iff_eq_add'.mpr heq] at hbound
    exact hbound
  case exact =>
    intro hzero v hv
    have hnone : b.keys.map (fun k => Scalar.loss (a.replaced t b k) * v k) =
        b.keys.map fun _ => 0 := by
      refine List.map_congr_left fun k hk => ?_
      cases hthere : (a.substitute t b).contains k with
      | true => rw [Scalar.loss, hsettled k hk hthere, sub_self, zero_mul]
      | false => rw [Scalar.loss, hzero k hk hthere, Scalar.settled, ite_self, sub_self, zero_mul]
    have heq := evaluate_substitute_settled ha ht hcontains hv
    rw [hnone, List.sum_map_zero, add_zero] at heq
    exact heq
  case merged =>
    intro k hk hthere
    exact (hmerges k hk).2.trans (hsettled k hk hthere)
  case gone =>
    intro hthere
    by_contra hnot
    rw [not_contains_substitute (Bool.eq_false_iff.mpr hnot)] at hthere
    cases hthere
  case kept =>
    intro k hne hnot
    rw [substitute_of_contains hcontains]
    exact (find?_insertRow_of_not_contains _ hnot _).trans (find?_remove_of_ne a hne)
  case order =>
    rw [substitute_of_contains hcontains, filter_keys_insertRow, keys_remove, List.filter_filter]
    exact List.filter_congr fun k _ => Bool.and_comm _ _

end Substitute

/-- To replace a key tells whether there was a term for it. Where there was one, the value moves by
what was dropped, at most the tolerance for each key of the replacement. Where there was none,
nothing changes. -/
theorem substitute_replaces {tolerance : Rat} (htolerance : 0 ≤ tolerance)
    (a b : Row (Tolerant tolerance)) (t : Term Key (Tolerant tolerance)) (ha : a.scale ≠ 0)
    (ht : t.coefficient ≠ 0) :
    (a.contains t.var = true → ∃ r, a.substitute? t b = some r ∧ a.substitute t b = r ∧
      Replaces a t b r) ∧
    (a.contains t.var = false → a.substitute? t b = none ∧ a.substitute t b = a) := by
  constructor
  · intro hcontains
    obtain ⟨r, hr⟩ := Option.isSome_iff_exists.mp ((isSome_substitute? a t b).trans hcontains)
    have hsame : a.substitute t b = r := by rw [substitute, hr, Option.getD_some]
    have hreplaces : Replaces a t b (a.substitute t b) :=
      replaces_substitute htolerance ha ht hcontains
    rw [hsame] at hreplaces
    exact ⟨r, hr, hsame, hreplaces⟩
  · intro hnot
    have hnone : a.substitute? t b = none := by
      rw [← Option.isNone_iff_eq_none, ← Option.isSome_eq_false_iff, isSome_substitute?, hnot]
    exact ⟨hnone, substitute_of_not_contains hnot⟩

/-- The row `3 + (1/2 + 2⁻³⁰) * v0 + 4 * s0`. -/
def leaning : Row (Tolerant (1 / 10 ^ 8)) := (ofConstant 3).insertAll
  [⟨.ofIndex .external false 0, 1 / 2 + 1 / 2 ^ 30⟩, ⟨.ofIndex .slack false 0, 4⟩]

/-- The row `1 - 1/4 * v0 + v1`. -/
def counterweight : Row (Tolerant (1 / 10 ^ 8)) := (ofConstant 1).insertAll
  [⟨.ofIndex .external false 0, -1 / 4⟩, ⟨.ofIndex .external false 1, 1⟩]

/-- With the tolerance that is the default, `2 * s0` is replaced by a row that nearly cancels the
coefficient of `v0`. The coefficient is dropped, and the value moves where `v0` is not zero. -/
theorem substitute_replaces_leaning :
    leaning.replaced ⟨.ofIndex .slack false 0, 2⟩ counterweight (.ofIndex .external false 0) =
      1 / 2 ^ 30 ∧
    (∃ r, leaning.substitute? ⟨.ofIndex .slack false 0, 2⟩ counterweight = some r ∧
      leaning.substitute ⟨.ofIndex .slack false 0, 2⟩ counterweight = r ∧
      Replaces leaning ⟨.ofIndex .slack false 0, 2⟩ counterweight r ∧
      r.terms = [⟨.ofIndex .external false 1, 2⟩] ∧ r.constant = 5) ∧
    counterweight.substitute? ⟨.ofIndex .slack false 0, 2⟩ leaning = none ∧
    counterweight.substitute ⟨.ofIndex .slack false 0, 2⟩ leaning = counterweight := by
  obtain ⟨r, hr, hsame, hrow⟩ := (substitute_replaces (by norm_num) leaning counterweight
    ⟨.ofIndex .slack false 0, 2⟩ (by decide +kernel) (by decide +kernel)).1 (by decide +kernel)
  refine ⟨by decide +kernel, ⟨r, hr, hsame, hrow, ?_, ?_⟩,
    (substitute_replaces (by norm_num) counterweight leaning ⟨.ofIndex .slack false 0, 2⟩
      (by decide +kernel) (by decide +kernel)).2 (by decide +kernel)⟩
  · rw [← hsame]
    decide +kernel
  · rw [← hsame]
    decide +kernel

end Row

end Cassowary
