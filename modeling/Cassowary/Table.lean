/-!
# Tables

A table holds one entry for each of its keys, in the order in which the keys came. Giving a key that
is present another entry keeps its place; removing a key closes the gap; a key that comes again goes
to the end.

## Main definitions

* `Table` — an ordered list of entries with distinct keys
* `Table.alter` — the one operation that changes an entry, from which `insert` and `erase` come
* `Table.mapValues`, `Table.filter`, `Table.ofList` — operations on all entries

## Main results

* `Table.get?_alter_self`, `Table.get?_alter_of_ne` — what a changed table holds
* `Table.keys_alter_some`, `Table.keys_alter_none` — where the keys of a changed table stand
* `Table.get?_mapValues`, `Table.keys_mapValues` — the same for a change of all entries
-/

namespace Cassowary

/-- Entries with distinct keys, oldest first. -/
structure Table (κ β : Type) where
  entries : List (κ × β)
  nodup_keys : (entries.map Prod.fst).Nodup

namespace Table

variable {κ β γ : Type}

/-- The keys, oldest first. -/
def keys (t : Table κ β) : List κ := t.entries.map Prod.fst

/-- How many keys there are. -/
def size (t : Table κ β) : Nat := t.entries.length

/-- Whether there are no keys. -/
def isEmpty (t : Table κ β) : Bool := t.entries.isEmpty

/-- No entries. -/
def empty : Table κ β := ⟨[], .nil⟩

instance : EmptyCollection (Table κ β) := ⟨empty⟩

instance : Inhabited (Table κ β) := ⟨empty⟩

@[ext] theorem ext {t u : Table κ β} (h : t.entries = u.entries) : t = u := by
  cases t; cases u; cases h; rfl

/-- Every entry changed in place. -/
def mapValues (t : Table κ β) (f : κ → β → γ) : Table κ γ where
  entries := t.entries.map fun e => (e.1, f e.1 e.2)
  nodup_keys := by simpa [Function.comp_def] using t.nodup_keys

@[simp] theorem keys_mapValues (t : Table κ β) (f : κ → β → γ) : (t.mapValues f).keys = t.keys := by
  simp [keys, mapValues, Function.comp_def]

/-- The entries that pass a test. -/
def filter (t : Table κ β) (keep : κ → β → Bool) : Table κ β where
  entries := t.entries.filter fun e => keep e.1 e.2
  nodup_keys := t.nodup_keys.sublist (List.filter_sublist.map _)

variable [DecidableEq κ]

/-- The entry of a key. -/
def get? (t : Table κ β) (k : κ) : Option β := t.entries.lookup k

/-- Whether a key has an entry. -/
def contains (t : Table κ β) (k : κ) : Bool := (t.get? k).isSome

/-- Changes, adds or removes the entry of `k` in a list of entries. -/
def alterEntries (k : κ) (f : Option β → Option β) : List (κ × β) → List (κ × β)
  | [] => match f none with
    | some b => [(k, b)]
    | none => []
  | (k', b) :: rest =>
    if k' = k then match f (some b) with
      | some b => (k', b) :: rest
      | none => rest
    else (k', b) :: alterEntries k f rest

theorem mem_keys_alterEntries {k k' : κ} {f : Option β → Option β} {l : List (κ × β)}
    (h : k' ∈ (alterEntries k f l).map Prod.fst) : k' = k ∨ k' ∈ l.map Prod.fst := by
  induction l with
  | nil => grind [alterEntries]
  | cons e rest ih => grind [alterEntries]

theorem nodup_alterEntries {k : κ} {f : Option β → Option β} {l : List (κ × β)}
    (h : (l.map Prod.fst).Nodup) : ((alterEntries k f l).map Prod.fst).Nodup := by
  induction l with
  | nil => simp only [alterEntries]; split <;> simp
  | cons e rest ih =>
    obtain ⟨hnot, hrest⟩ := List.nodup_cons.mp h
    simp only [alterEntries]
    split
    · split
      · exact h
      · exact hrest
    · refine List.nodup_cons.mpr ⟨fun hmem => ?_, ih hrest⟩
      rcases mem_keys_alterEntries hmem with heq | hmem
      · contradiction
      · exact hnot hmem

/-- Gives `k` the entry that `f` makes of its present one, in its present place, or takes the entry
away where `f` gives none. -/
def alter (t : Table κ β) (k : κ) (f : Option β → Option β) : Table κ β :=
  ⟨alterEntries k f t.entries, nodup_alterEntries t.nodup_keys⟩

/-- Gives `k` an entry. -/
def insert (t : Table κ β) (k : κ) (b : β) : Table κ β := t.alter k fun _ => some b

/-- Gives `k` an entry unless it has one. -/
def insertIfNew (t : Table κ β) (k : κ) (b : β) : Table κ β := t.alter k fun old => some (old.getD b)

/-- Takes the entry of `k` away. -/
def erase (t : Table κ β) (k : κ) : Table κ β := t.alter k fun _ => none

/-- The table that comes from inserting the entries in order. -/
def ofList (l : List (κ × β)) : Table κ β := l.foldl (fun t e => t.insert e.1 e.2) ∅

/-! ## Looking up -/

@[simp] theorem get?_empty (k : κ) : (∅ : Table κ β).get? k = none := rfl

theorem get?_eq_some_iff {t : Table κ β} {k : κ} {b : β} :
    t.get? k = some b ↔ (k, b) ∈ t.entries := by
  obtain ⟨l, h⟩ := t
  simp only [get?]
  induction l with
  | nil => simp
  | cons e rest ih =>
    obtain ⟨hnot, hrest⟩ := List.nodup_cons.mp h
    grind

theorem contains_iff_mem_keys {t : Table κ β} {k : κ} : t.contains k = true ↔ k ∈ t.keys := by
  simp [contains, keys, Option.isSome_iff_exists, get?_eq_some_iff]

theorem get?_eq_none_iff {t : Table κ β} {k : κ} : t.get? k = none ↔ k ∉ t.keys := by
  rw [← contains_iff_mem_keys, contains, Bool.not_eq_true, Option.isSome_eq_false_iff,
    Option.isNone_iff_eq_none]

@[simp] theorem get?_mapValues (t : Table κ β) (f : κ → β → γ) (k : κ) :
    (t.mapValues f).get? k = (t.get? k).map (f k) := by
  obtain ⟨l, h⟩ := t
  simp only [get?, mapValues]
  clear h
  induction l with
  | nil => rfl
  | cons e rest ih => grind

/-! ## Changing an entry -/

@[simp] theorem get?_alter_self (t : Table κ β) (k : κ) (f : Option β → Option β) :
    (t.alter k f).get? k = f (t.get? k) := by
  obtain ⟨l, h⟩ := t
  simp only [get?, alter]
  induction l with
  | nil => grind [alterEntries]
  | cons e rest ih =>
    obtain ⟨hnot, hrest⟩ := List.nodup_cons.mp h
    have hlookup : e.1 = k → rest.lookup k = none := fun heq => by
      simp only [List.lookup_eq_none_iff, bne_iff_ne]
      exact fun p hp hk => hnot (List.mem_map.mpr ⟨p, hp, by rw [heq, hk]⟩)
    grind [alterEntries]

theorem get?_alter_of_ne (t : Table κ β) {k k' : κ} (f : Option β → Option β) (h : k' ≠ k) :
    (t.alter k f).get? k' = t.get? k' := by
  obtain ⟨l, _⟩ := t
  simp only [get?, alter]
  induction l with
  | nil => grind [alterEntries]
  | cons e rest ih => grind [alterEntries]

theorem keys_alter_some {t : Table κ β} {k : κ} {f : Option β → Option β} {b : β}
    (h : f (t.get? k) = some b) :
    (t.alter k f).keys = if k ∈ t.keys then t.keys else t.keys ++ [k] := by
  obtain ⟨l, _⟩ := t
  simp only [get?, keys, alter] at h ⊢
  induction l with
  | nil => grind [alterEntries]
  | cons e rest ih => grind [alterEntries]

theorem keys_alter_none {t : Table κ β} {k : κ} {f : Option β → Option β}
    (h : f (t.get? k) = none) : (t.alter k f).keys = t.keys.filter (· ≠ k) := by
  obtain ⟨l, hl⟩ := t
  simp only [get?, keys, alter] at h ⊢
  induction l with
  | nil => grind [alterEntries]
  | cons e rest ih =>
    obtain ⟨hnot, hrest⟩ := List.nodup_cons.mp hl
    have hkept : e.1 = k → (rest.map Prod.fst).filter (· ≠ k) = rest.map Prod.fst := fun heq => by
      refine List.filter_eq_self.mpr fun k' hk' => ?_
      have : k' ≠ k := fun hk => hnot (by rw [heq, ← hk]; exact hk')
      simpa using this
    grind [alterEntries]

end Table

end Cassowary
