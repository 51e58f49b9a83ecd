import Mathlib.Data.List.Nodup
import Cassowary.Table

/-!
# Looking up in changed tables

What each way of changing a table does to what it holds and to the order of its keys. A table is
determined by the order of its keys and by what it holds for each of them, and it is built again by
inserting its entries in order.

## Main results

* `Table.ext_get?` — tables with the same keys in the same order and the same entries are the same
* `Table.get?_filter`, `Table.get?_insert`, `Table.get?_erase` — look-ups in a changed table
* `Table.ofList_entries` — a table is the table of its entries
-/

namespace Cassowary

namespace Table

variable {κ β γ : Type} [DecidableEq κ] {t u : Table κ β} {k k' : κ} {b : β}

theorem exists_get?_of_mem_keys (h : k ∈ t.keys) : ∃ b, t.get? k = some b := by
  rw [← contains_iff_mem_keys, contains] at h
  exact Option.isSome_iff_exists.mp h

/-- Whatever is said of all that a table holds can be tried on its entries. -/
theorem forall_get?_iff {P : κ → β → Prop} :
    (∀ k b, t.get? k = some b → P k b) ↔ ∀ e ∈ t.entries, P e.1 e.2 :=
  ⟨fun h e he => h e.1 e.2 (get?_eq_some_iff.mpr he),
    fun h k b hb => h (k, b) (get?_eq_some_iff.mp hb)⟩

/-! ## Changing one entry -/

theorem get?_insert (t : Table κ β) (k k' : κ) (b : β) :
    (t.insert k b).get? k' = if k' = k then some b else t.get? k' := by
  split
  · next h => rw [h, insert, get?_alter_self]
  · next h => rw [insert, get?_alter_of_ne t _ h]

theorem get?_erase (t : Table κ β) (k k' : κ) :
    (t.erase k).get? k' = if k' = k then none else t.get? k' := by
  split
  · next h => rw [h, erase, get?_alter_self]
  · next h => rw [erase, get?_alter_of_ne t _ h]

theorem keys_insert (t : Table κ β) (k : κ) (b : β) :
    (t.insert k b).keys = if k ∈ t.keys then t.keys else t.keys ++ [k] :=
  keys_alter_some rfl

/-- A key without an entry gets its entry at the end. -/
theorem entries_insert_of_notMem (h : k ∉ t.keys) :
    (t.insert k b).entries = t.entries ++ [(k, b)] := by
  obtain ⟨l, _⟩ := t
  simp only [keys, insert, alter] at h ⊢
  induction l with
  | nil => rfl
  | cons e rest ih =>
    have hne : e.1 ≠ k := fun heq => h (by simp [heq])
    have hrest : k ∉ rest.map Prod.fst := fun hmem => h (by simp [hmem])
    simp only [alterEntries, hne, if_false, List.cons_append]
    rw [ih (List.nodup_cons.mp ‹_›).2 hrest]

/-- Nothing is left out of a list for a key that none of its entries has. -/
theorem filter_ne_of_notMem {l : List (κ × β)} (h : k ∉ l.map Prod.fst) :
    l.filter (fun e => e.1 ≠ k) = l := by
  apply List.filter_eq_self.mpr
  intro e he
  apply decide_eq_true
  intro heq
  exact h (List.mem_map.mpr ⟨e, he, heq⟩)

/-- Without its entry for a key, a table holds the other entries in their order. -/
theorem entries_erase (t : Table κ β) (k : κ) :
    (t.erase k).entries = t.entries.filter fun e => e.1 ≠ k := by
  obtain ⟨l, hl⟩ := t
  simp only [erase, alter]
  induction l with
  | nil => rfl
  | cons e rest ih =>
    obtain ⟨hnot, hrest⟩ := List.nodup_cons.mp hl
    simp only [alterEntries]
    split
    · next heq =>
      have hkept := filter_ne_of_notMem (heq ▸ hnot : k ∉ rest.map Prod.fst)
      simp only [List.filter_cons, heq, ne_eq, not_true_eq_false, decide_false]
      exact hkept.symm
    · next hne => simp [hne, ih hrest]

/-- A table holds an entry and what it holds without it. -/
theorem perm_entries_erase (h : t.get? k = some b) :
    t.entries.Perm ((k, b) :: (t.erase k).entries) := by
  have hmem := get?_eq_some_iff.mp h
  rw [entries_erase]
  obtain ⟨l, hl⟩ := t
  simp only at hmem ⊢
  clear h
  induction l with
  | nil => cases hmem
  | cons e rest ih =>
    obtain ⟨hnot, hrest⟩ := List.nodup_cons.mp hl
    rcases List.mem_cons.mp hmem with rfl | hmem
    · rw [List.filter_cons_of_neg (by simp), filter_ne_of_notMem hnot]
    · have hne : e.1 ≠ k := fun heq => hnot (List.mem_map.mpr ⟨(k, b), hmem, heq.symm⟩)
      rw [List.filter_cons_of_pos (by simpa using hne)]
      exact ((ih hrest hmem).cons e).trans (.swap _ _ _)

/-- Nothing goes with a key that has no entry. -/
theorem erase_of_get?_eq_none (h : t.get? k = none) : t.erase k = t := by
  apply Table.ext
  rw [entries_erase]
  exact filter_ne_of_notMem (get?_eq_none_iff.mp h)

/-! ## Changing all entries -/

theorem get?_filter (t : Table κ β) (keep : κ → β → Bool) (k : κ) :
    (t.filter keep).get? k = (t.get? k).filter (keep k) := by
  ext b
  rw [get?_eq_some_iff, Option.filter_eq_some_iff, get?_eq_some_iff]
  simp [filter]

/-- Changing the entry of a key leaves the other keys in their order. -/
theorem filter_keys_alter {keep : κ → Bool} (f : Option β → Option β) (hk : keep k = false) :
    (t.alter k f).keys.filter keep = t.keys.filter keep := by
  cases hf : f (t.get? k) with
  | some b =>
    rw [keys_alter_some hf]
    split
    · rfl
    · rw [List.filter_append, List.filter_singleton, hk, Bool.cond_false, List.append_nil]
  | none =>
    rw [keys_alter_none hf, List.filter_filter]
    refine List.filter_congr fun k' _ => ?_
    by_cases heq : k' = k
    · rw [heq, hk, Bool.false_and]
    · simp [heq]

/-! ## Sameness -/

/-- Looking up the keys in their order gives the entries. -/
theorem filterMap_keys (t : Table κ β) :
    t.keys.filterMap (fun k => (t.get? k).map (k, ·)) = t.entries := by
  have hlookup : ∀ e ∈ t.entries, ((t.get? e.1).map (e.1, ·)) = some e := fun e he => by
    rw [get?_eq_some_iff.mpr he, Option.map_some]
  rw [keys, List.filterMap_map]
  calc t.entries.filterMap ((fun k => (t.get? k).map (k, ·)) ∘ Prod.fst)
      = t.entries.filterMap some := List.filterMap_congr hlookup
    _ = t.entries := List.filterMap_some

/-- A table is determined by the order of its keys and what it holds for them. -/
theorem ext_get? (hkeys : t.keys = u.keys) (hget : ∀ k ∈ t.keys, t.get? k = u.get? k) : t = u := by
  apply Table.ext
  rw [← filterMap_keys t, ← filterMap_keys u, ← hkeys]
  exact List.filterMap_congr fun k hk => by rw [hget k hk]

/-- A change that gives an entry inserts it. -/
theorem alter_eq_insert {f : Option β → Option β} (h : f (t.get? k) = some b) :
    t.alter k f = t.insert k b := by
  apply ext_get?
  · rw [keys_alter_some h, keys_insert]
  · intro k' _
    rw [get?_insert]
    split
    · next hk => rw [hk, get?_alter_self, h]
    · next hk => rw [get?_alter_of_ne t f hk]

/-- A change that gives no entry takes it away. -/
theorem alter_eq_erase {f : Option β → Option β} (h : f (t.get? k) = none) :
    t.alter k f = t.erase k := by
  apply ext_get?
  · rw [keys_alter_none h, erase, keys_alter_none rfl]
  · intro k' _
    rw [get?_erase]
    split
    · next hk => rw [hk, get?_alter_self, h]
    · next hk => rw [get?_alter_of_ne t f hk]

/-- A change is what it makes of the entry that there is. -/
theorem alter_congr {f g : Option β → Option β} (h : f (t.get? k) = g (t.get? k)) :
    t.alter k f = t.alter k g := by
  cases hg : g (t.get? k) with
  | some b => rw [alter_eq_insert hg, alter_eq_insert (h.trans hg)]
  | none => rw [alter_eq_erase hg, alter_eq_erase (h.trans hg)]

/-- Changing an entry and then all of them is changing all of them and then the one. -/
theorem mapValues_alter {f : Option β → Option β} {f' : Option γ → Option γ} {g : κ → β → γ}
    (h : f' ((t.get? k).map (g k)) = (f (t.get? k)).map (g k)) :
    (t.alter k f).mapValues g = (t.mapValues g).alter k f' := by
  apply ext_get?
  · rw [keys_mapValues]
    cases hf : f (t.get? k) with
    | some b =>
      rw [keys_alter_some hf, keys_alter_some (by rw [get?_mapValues, h, hf]; rfl), keys_mapValues]
    | none =>
      rw [keys_alter_none hf, keys_alter_none (by rw [get?_mapValues, h, hf]; rfl), keys_mapValues]
  · intro k' _
    rw [get?_mapValues]
    by_cases hk : k' = k
    · rw [hk, get?_alter_self, get?_alter_self, get?_mapValues, h]
    · rw [get?_alter_of_ne _ _ hk, get?_alter_of_ne _ _ hk, get?_mapValues]

omit [DecidableEq κ] in
@[simp] theorem mapValues_mapValues {δ : Type} (t : Table κ β) (f : κ → β → γ) (g : κ → γ → δ) :
    (t.mapValues f).mapValues g = t.mapValues fun k b => g k (f k b) :=
  Table.ext List.map_map

/-- Inserting entries with new and distinct keys appends them. -/
theorem entries_foldl_insert {l : List (κ × β)}
    (h : ((t.entries ++ l).map Prod.fst).Nodup) :
    (l.foldl (fun t e => t.insert e.1 e.2) t).entries = t.entries ++ l := by
  induction l generalizing t with
  | nil => simp
  | cons e rest ih =>
    have hnew : e.1 ∉ t.keys := fun hmem => by
      rw [List.map_append, List.nodup_append] at h
      exact h.2.2 _ hmem _ (by simp) rfl
    have hentries : (t.insert e.1 e.2).entries = t.entries ++ [e] := entries_insert_of_notMem hnew
    rw [List.foldl_cons, ih (by rw [hentries]; simpa using h), hentries]
    simp

theorem ofList_entries (t : Table κ β) : ofList t.entries = t :=
  Table.ext (entries_foldl_insert (t := ∅) t.nodup_keys)

end Table

end Cassowary
