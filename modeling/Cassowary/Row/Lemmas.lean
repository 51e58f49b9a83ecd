import Cassowary.Row

/-!
# The keys of a row

Which keys a row has after an operation does not depend on laws of arithmetic, only on which
coefficients count as zero. So it is the same for every kind of scalar.

## Main results

* `Row.exists_mem_terms`, `Row.coefficient_of_mem_terms` — terms are keys with their coefficients
* `Row.contains_of_contains_insert`, `Row.contains_of_contains_insertRow` — sums bring in no keys of
  their own
* `Row.find?_insertAll_of_notMem`, `Row.find?_insertRow_of_not_contains` — sums change no terms but
  those of the keys that come in
* `Row.contains_remove` — removal takes away one key and no other
* `Row.keys_normalize`, `Row.keys_foldScale` — changes of the scale keep the keys
* `Row.not_contains_solveFor` — a solved row does not mention the key that it is the row of
-/

namespace Cassowary

namespace Row

variable {α : Type} {r other : Row α} {k k' basic : Key}

/-! ## Keys -/

theorem contains_iff_mem_keys : r.contains k = true ↔ k ∈ r.keys := Table.contains_iff_mem_keys

theorem contains_remove (r : Row α) (k k' : Key) :
    (r.remove k).contains k' = (decide (k' ≠ k) && r.contains k') := by
  by_cases h : k' = k
  · simp [h, contains, remove, Table.contains, Table.erase]
  · simp [h, contains, remove, Table.contains, Table.erase, Table.get?_alter_of_ne]

@[simp] theorem contains_remove_self (r : Row α) (k : Key) : (r.remove k).contains k = false := by
  simp [contains_remove]

@[simp] theorem constant_remove (r : Row α) (k : Key) : (r.remove k).constant = r.constant := rfl

variable [Scalar α]

/-! ## Terms -/

@[simp] theorem map_var_terms (r : Row α) : r.terms.map (·.var) = r.keys := by
  simp [terms, keys, Table.keys, Function.comp_def]

@[simp] theorem map_var_scaled_terms (r : Row α) (factor : α) :
    (r.terms.map (·.scaled factor)).map (·.var) = r.keys := by
  rw [List.map_map, ← map_var_terms r]
  rfl

theorem var_mem_keys {t : Term Key α} (h : t ∈ r.terms) : t.var ∈ r.keys := by
  rw [← map_var_terms]
  exact List.mem_map_of_mem h

@[simp] theorem isSome_find? (r : Row α) (k : Key) : (r.find? k).isSome = r.contains k := by
  simp [find?, contains, Table.contains]

theorem find?_eq_none_iff : r.find? k = none ↔ r.contains k = false := by
  rw [← isSome_find?, Option.isSome_eq_false_iff, Option.isNone_iff_eq_none]

theorem coefficientFor_eq (r : Row α) (k : Key) :
    r.coefficientFor k = (r.cells.get? k).elim 0 (· * r.scale) := by
  rw [coefficientFor, find?]
  cases r.cells.get? k <;> rfl

theorem coefficientFor_of_not_contains (h : r.contains k = false) : r.coefficientFor k = 0 := by
  rw [coefficientFor, find?_eq_none_iff.mpr h]
  rfl

theorem contains_of_coefficientFor_ne_zero (h : r.coefficientFor k ≠ 0) : r.contains k = true := by
  cases hk : r.contains k with
  | true => rfl
  | false => exact absurd (coefficientFor_of_not_contains hk) h

theorem exists_mem_terms (h : r.contains k = true) : ⟨k, r.coefficientFor k⟩ ∈ r.terms := by
  obtain ⟨c, hc⟩ := Option.isSome_iff_exists.mp h
  rw [coefficientFor_eq, hc]
  exact List.mem_map.mpr ⟨(k, c), Table.get?_eq_some_iff.mp hc, rfl⟩

theorem coefficient_of_mem_terms {t : Term Key α} (h : t ∈ r.terms) :
    t.coefficient = r.coefficientFor t.var := by
  obtain ⟨e, he, rfl⟩ := List.mem_map.mp h
  rw [coefficientFor_eq, Table.get?_eq_some_iff.mpr he]
  rfl

/-! ## Sums -/

@[simp] theorem contains_ofConstant (c : α) (k : Key) : (ofConstant c).contains k = false := rfl

@[simp] theorem contains_addConstant (r : Row α) (delta : α) (k : Key) :
    (r.addConstant delta).contains k = r.contains k := rfl

@[simp] theorem coefficientFor_addConstant (r : Row α) (delta : α) (k : Key) :
    (r.addConstant delta).coefficientFor k = r.coefficientFor k := rfl

theorem insertAll_cons (r : Row α) (t : Term Key α) (ts : List (Term Key α)) :
    r.insertAll (t :: ts) = (r.insert t).insertAll ts := rfl

@[simp] theorem constant_insert (r : Row α) (t : Term Key α) :
    (r.insert t).constant = r.constant := rfl

@[simp] theorem constant_insertAll (r : Row α) (ts : List (Term Key α)) :
    (r.insertAll ts).constant = r.constant := by
  induction ts generalizing r with
  | nil => rfl
  | cons t rest ih => rw [insertAll_cons, ih, constant_insert]

/-- A term changes none but the term of its key. -/
theorem find?_insert_of_ne (r : Row α) {t : Term Key α} (h : k ≠ t.var) :
    (r.insert t).find? k = r.find? k := by
  rw [find?, find?, insert, Table.get?_alter_of_ne _ _ h]

theorem contains_insert_of_ne (t : Term Key α) (h : k ≠ t.var) :
    (r.insert t).contains k = r.contains k := by
  rw [← isSome_find?, find?_insert_of_ne r h, isSome_find?]

theorem coefficientFor_insert_of_ne (t : Term Key α) (h : k ≠ t.var) :
    (r.insert t).coefficientFor k = r.coefficientFor k := by
  rw [coefficientFor, coefficientFor, find?_insert_of_ne r h]

/-- A term brings in no key but its own. -/
theorem contains_of_contains_insert {t : Term Key α} (h : (r.insert t).contains k = true) :
    k = t.var ∨ r.contains k = true := by
  by_cases hk : k = t.var
  · exact .inl hk
  · rw [contains_insert_of_ne t hk] at h
    exact .inr h

theorem contains_of_contains_insertAll {ts : List (Term Key α)}
    (h : (r.insertAll ts).contains k = true) : k ∈ ts.map (·.var) ∨ r.contains k = true := by
  induction ts generalizing r with
  | nil => exact .inr h
  | cons t rest ih =>
    rw [List.map_cons, List.mem_cons]
    rcases ih h with hrest | hinsert
    · exact .inl (.inr hrest)
    · rcases contains_of_contains_insert hinsert with heq | hr
      · exact .inl (.inl heq)
      · exact .inr hr

/-- A multiple of another row brings in no key but those of the other row. -/
theorem contains_of_contains_insertRow {factor : α}
    (h : (r.insertRow other factor).contains k = true) :
    other.contains k = true ∨ r.contains k = true := by
  rcases contains_of_contains_insertAll h with hmem | hr
  · rw [map_var_scaled_terms] at hmem
    exact .inl (contains_iff_mem_keys.mpr hmem)
  · exact .inr hr

theorem find?_insertAll_of_notMem (r : Row α) {ts : List (Term Key α)}
    (h : k ∉ ts.map (·.var)) : (r.insertAll ts).find? k = r.find? k := by
  induction ts generalizing r with
  | nil => rfl
  | cons t rest ih =>
    rw [List.map_cons, List.mem_cons, not_or] at h
    rw [insertAll_cons, ih _ h.2, find?_insert_of_ne r h.1]

theorem coefficientFor_insertAll_of_notMem {ts : List (Term Key α)} (h : k ∉ ts.map (·.var)) :
    (r.insertAll ts).coefficientFor k = r.coefficientFor k := by
  rw [coefficientFor, coefficientFor, find?_insertAll_of_notMem r h]

/-- A multiple of another row changes no terms but those of its keys. -/
theorem find?_insertRow_of_not_contains (r : Row α) (h : other.contains k = false) (factor : α) :
    (r.insertRow other factor).find? k = r.find? k := by
  refine (find?_insertAll_of_notMem _ fun hmem => ?_).trans rfl
  rw [map_var_scaled_terms, ← contains_iff_mem_keys, h] at hmem
  cases hmem

theorem coefficientFor_insertRow_of_not_contains (h : other.contains k = false) (factor : α) :
    (r.insertRow other factor).coefficientFor k = r.coefficientFor k := by
  rw [coefficientFor, coefficientFor, find?_insertRow_of_not_contains r h]

/-! ## Differences -/

theorem coefficientFor_remove (r : Row α) (k k' : Key) :
    (r.remove k).coefficientFor k' = if k' = k then 0 else r.coefficientFor k' := by
  split
  · next h => exact coefficientFor_of_not_contains (h ▸ contains_remove_self r k)
  · next h => rw [coefficientFor_eq, coefficientFor_eq, remove, Table.erase, Table.get?_alter_of_ne _ _ h]

/-! ## Multiples -/

theorem normalize_eq_or (r : Row α) : r.normalize = r ∨ r.normalize = r.reverseSign := by
  rw [normalize]
  split
  · exact .inr rfl
  · exact .inl rfl

@[simp] theorem constant_foldScale (r : Row α) : r.foldScale.constant = r.constant := by
  simp only [foldScale]
  split <;> rfl

@[simp] theorem keys_reverseSign (r : Row α) : r.reverseSign.keys = r.keys := rfl

@[simp] theorem keys_normalize (r : Row α) : r.normalize.keys = r.keys := by
  rw [normalize]
  split <;> rfl

@[simp] theorem keys_foldScale (r : Row α) : r.foldScale.keys = r.keys := by
  simp only [foldScale, keys]
  split
  · rfl
  · exact Table.keys_mapValues _ _

@[simp] theorem contains_foldScale (r : Row α) (k : Key) : r.foldScale.contains k = r.contains k := by
  rw [Bool.eq_iff_iff, contains_iff_mem_keys, contains_iff_mem_keys, keys_foldScale]

/-! ## Replacing and solving -/

@[simp] theorem isSome_substitute? (r : Row α) (t : Term Key α) (other : Row α) :
    (r.substitute? t other).isSome = r.contains t.var := by
  simp [substitute?]

@[simp] theorem isSome_solveFor? (r : Row α) (k : Key) : (r.solveFor? k).isSome = r.contains k := by
  simp [solveFor?]

theorem substitute_of_not_contains {t : Term Key α} (h : r.contains t.var = false) :
    r.substitute t other = r := by
  rw [substitute, substitute?, find?_eq_none_iff.mpr h]
  rfl

theorem substitute_of_contains {t : Term Key α} (h : r.contains t.var = true) :
    r.substitute t other =
      (r.remove t.var).insertRow other (r.coefficientFor t.var / t.coefficient) := by
  obtain ⟨found, hfound⟩ := Option.isSome_iff_exists.mp ((isSome_find? r t.var).trans h)
  rw [substitute, substitute?, coefficientFor, hfound]
  rfl

/-- To replace a key touches no coefficient but its own and those of the replacement. -/
theorem coefficientFor_substitute_of_ne {t : Term Key α} (hk : k ≠ t.var)
    (h : other.contains k = false) : (r.substitute t other).coefficientFor k = r.coefficientFor k := by
  cases hr : r.contains t.var with
  | false => rw [substitute_of_not_contains hr]
  | true =>
    rw [substitute_of_contains hr, coefficientFor_insertRow_of_not_contains h, coefficientFor_remove,
      if_neg hk]

/-- A key that is replaced by a row without it is gone. -/
theorem not_contains_substitute {t : Term Key α} (h : other.contains t.var = false) :
    (r.substitute t other).contains t.var = false := by
  cases hr : r.contains t.var with
  | false => rwa [substitute_of_not_contains hr]
  | true =>
    rw [Bool.eq_false_iff, substitute_of_contains hr]
    intro hcontains
    rcases contains_of_contains_insertRow hcontains with hother | hremove
    · simp [h] at hother
    · simp at hremove

/-- The keys of a row in which one was replaced come from it and from the replacement. -/
theorem contains_of_contains_substitute {t : Term Key α}
    (h : (r.substitute t other).contains k = true) :
    other.contains k = true ∨ r.contains k = true := by
  cases hr : r.find? t.var with
  | none => rw [substitute, substitute?, hr] at h; exact .inr h
  | some found =>
    rw [substitute, substitute?, hr] at h
    rcases contains_of_contains_insertRow h with hother | hremove
    · exact .inl hother
    · rw [contains_remove, Bool.and_eq_true] at hremove
      exact .inr hremove.2

/-- A row with a term for a key is solved by dividing the rest by the negated coefficient. -/
theorem solveFor_eq (hk : r.coefficientFor k ≠ 0) : r.solveFor k = foldScale
    { r.remove k with
      scale := r.scale * (-1 / r.coefficientFor k)
      constant := r.constant * (-1 / r.coefficientFor k) } := by
  obtain ⟨t, ht⟩ := Option.isSome_iff_exists.mp
    ((isSome_find? r k).trans (contains_of_coefficientFor_ne_zero hk))
  have hcoefficient : t.coefficient = r.coefficientFor k := by rw [coefficientFor, ht]; rfl
  rw [solveFor, solveFor?, ht, Option.map_some, Option.getD_some, hcoefficient]
  rfl

/-- From `basic = row`, the equation that is solved. -/
theorem equated_eq (hk : r.coefficientFor k ≠ 0) : r.equated basic k = r.insert ⟨basic, -1⟩ := by
  rw [equated, if_pos (contains_of_coefficientFor_ne_zero hk)]

/-- A solved row does not mention the key that it is the row of. -/
@[simp] theorem not_contains_solveFor (r : Row α) (k : Key) :
    (r.solveFor k).contains k = false := by
  cases hr : r.find? k with
  | none =>
    rw [solveFor, solveFor?, hr]
    exact find?_eq_none_iff.mp hr
  | some found =>
    rw [solveFor, solveFor?, hr, Option.map_some, Option.getD_some, contains_foldScale]
    exact contains_remove_self r k

/-- The keys of a solved row come from the equation. -/
theorem contains_of_contains_solveFor (h : (r.solveFor k).contains k' = true) :
    r.contains k' = true := by
  cases hr : r.find? k with
  | none => rwa [solveFor, solveFor?, hr] at h
  | some found =>
    rw [solveFor, solveFor?, hr, Option.map_some, Option.getD_some, contains_foldScale] at h
    have hremove : (r.remove k).contains k' = true := h
    rw [contains_remove, Bool.and_eq_true] at hremove
    exact hremove.2

/-- The keys of the row of an entering key come from the row before and the key that leaves. -/
theorem contains_of_contains_solveForPair (h : (r.solveForPair basic k).contains k' = true) :
    k' = basic ∨ r.contains k' = true := by
  have hequated := contains_of_contains_solveFor h
  rw [equated] at hequated
  split at hequated
  · exact contains_of_contains_insert hequated
  · exact .inr hequated

end Row

end Cassowary
