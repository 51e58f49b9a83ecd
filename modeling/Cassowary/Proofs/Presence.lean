import Cassowary.Proofs.Dummies
import Cassowary.Proofs.Occurrence
import Cassowary.Proofs.Optimality

/-!
# Which variables have values

A solver looks for a variable among the rows first, and then at how often the constraints mention
it. The rows alone would not tell: a variable that is mentioned need not be basic. And a row that
outlived the last constraint on its variable would tell the value of a variable that is gone. There
is no such row. A variable that no constraint mentions may take any value without harm to an
equation, rows and equations have the same solutions, and the solutions of the rows bind each basic
variable to the others.

## Main definitions

* `State.Mentioned` — the keys in the constraints that are held

## Main results

* `State.Sound.mentioned_of_mentions` — layout variables in the tableau are mentioned by a
  constraint
* `Solver.Sound.read_eq` — what a solver with values tells of a variable
* `Solver.run_read_eq_notFound_iff` — after every run, the variables not found are those that no
  constraint mentions
-/

namespace Cassowary

/-- The number one is never basic. -/
theorem Key.rowless_of_constant {k : Key} (hk : k.kind = .constant) : k.Rowless := by
  constructor <;> simp [Key.unrestricted, Key.pivotable, Key.dummy, hk, Kind.unrestricted,
    Kind.pivotable]

namespace State

/-! ## Mentions -/

/-- Whether a constraint that is held mentions a key. -/
def Mentioned {α : Type} (s : State α) (k : Key) : Prop :=
  ∃ h r, s.constraints.get? h = some r ∧ k ∈ r.constraint.keys

/-- The books count what is mentioned and nothing else. -/
theorem Balanced.contains_references_iff {α : Type} [Scalar α] {s : State α} (hs : s.Balanced)
    (k : Key) : s.references.contains k = true ↔ s.Mentioned k := by
  have hcount : 0 < (s.references.get? k).getD 0 ↔ s.Mentioned k := by
    rw [hs.counted k, List.countP_pos_iff]
    constructor
    · rintro ⟨⟨h, r⟩, hmem, hk⟩
      exact ⟨h, r, Table.get?_eq_some_iff.mpr hmem, of_decide_eq_true hk⟩
    · rintro ⟨h, r, hr, hk⟩
      exact ⟨(h, r), Table.get?_eq_some_iff.mp hr, decide_eq_true hk⟩
  rw [← hcount, Table.contains]
  cases hget : s.references.get? k with
  | none => simp
  | some n => simpa using hs.positive k n hget

/-- A constraint that comes brings its variables along. -/
theorem mentioned_register {α : Type} [Scalar α] {s : State α} {h : Handle} {r : Record α} {k : Key}
    (hnew : s.constraints.get? h = none) :
    (s.register h r).Mentioned k ↔ k ∈ r.constraint.keys ∨ s.Mentioned k := by
  constructor
  · rintro ⟨h', r', hr', hk⟩
    rcases get?_register_cases hr' with ⟨rfl, rfl⟩ | hr'
    · exact .inl hk
    · exact .inr ⟨h', r', hr', hk⟩
  · rintro (hk | ⟨h', r', hr', hk⟩)
    · exact ⟨h, r, by rw [get?_register, if_pos rfl], hk⟩
    · refine ⟨h', r', ?_, hk⟩
      rw [get?_register, if_neg fun heq => ?_, hr']
      cases (heq ▸ hr').symm.trans hnew

variable {s : State Rat} {k : Key} {row : Row Rat} {exact quiet : Prop}

/-- A constraint mentions layout variables only. -/
theorem Tidy.unrestricted_of_mentioned (hs : s.Tidy) (hk : s.Mentioned k) :
    k.unrestricted = true := by
  obtain ⟨h, r, hr, hmem⟩ := hk
  obtain ⟨term, hterm, rfl⟩ := List.mem_map.mp hmem
  exact hs.layout h r hr term hterm

/-- The equations do not depend on a layout variable that no constraint mentions. -/
theorem Tidy.ignores_of_not_mentioned (hs : s.Tidy) (hk : k.unrestricted = true)
    (hnot : ¬ s.Mentioned k) : Ignores s.Equations k := by
  intro v x hv
  rw [equations_iff] at hv ⊢
  intro h r hr
  have hkeys : k ∉ (s.current h r).keys := fun hmem =>
    hnot ⟨h, r, hr, hs.keys_current hr ▸ hmem⟩
  have hmarkers : k ∉ h.markers := fun hmem => by
    rw [(hs.fits h r hr).unrestricted hmem] at hk
    cases hk
  rw [Handle.equation_of_value (Constraint.value_of_notMem hkeys) hmarkers, hv h r hr]

/-- The charge depends on no layout variable. -/
theorem Tidy.costIgnores_of_unrestricted (hs : s.Tidy) (hk : k.unrestricted = true) :
    CostIgnores s.charge k :=
  charge_ignores fun h r hr hmem => by
    rw [(hs.fits h r hr).unrestricted hmem] at hk
    cases hk

/-- Between operations a layout variable that occurs in the tableau is mentioned by a constraint. -/
theorem Sound.mentioned_of_mentions (hs : s.Sound exact quiet)
    (hartificial : s.tableau.artificial = none) (hk : k.unrestricted = true)
    (hmentions : s.tableau.Mentions k) : s.Mentioned k := by
  by_contra hnot
  exact hs.not_mentions_of_ignores hartificial (hs.tidy.ignores_of_not_mentioned hk hnot)
    (hs.tidy.costIgnores_of_unrestricted hk) hmentions

theorem Sound.isBasic_of_constant (hs : s.Sound exact quiet) {k : Key} (hk : k.kind = .constant) :
    s.tableau.isBasic k = false :=
  hs.tableau.prepared.represents.isBasic_eq_false
    (hs.ignores_of_rowless (Key.rowless_of_constant hk)).1

/-- A variable with a row is mentioned by a constraint. -/
theorem Sound.mentioned_of_row (hs : s.Sound exact quiet) {x : Variable}
    (hrow : s.tableau.rows.get? x.key = some row) : s.Mentioned x.key := by
  rcases x.mentionable with hx | hx
  · by_contra hnot
    have hbasic := hs.tableau.prepared.represents.isBasic_eq_false
      (hs.tidy.ignores_of_not_mentioned hx hnot)
    exact Tableau.ne_of_get? hrow hbasic rfl
  · exact absurd rfl (Tableau.ne_of_get? hrow (hs.isBasic_of_constant hx))

end State

namespace Solver

variable {s : Solver Rat} {config : Config Rat} {os : List (Operation Rat)} {exact quiet : Prop}

/-! ## Readings -/

open Classical in
/-- What a solver with values tells of a variable. -/
theorem Sound.read_eq (hs : s.Sound exact quiet) (hbalanced : s.state.Balanced)
    (hpoisoned : s.poisoned = false) (x : Variable) :
    s.read x = if s.state.Mentioned x.key then .value (s.state.tableau.basicSolution x.key)
      else .notFound := by
  rw [read, hpoisoned, if_neg Bool.false_ne_true]
  cases hrow : s.state.tableau.rows.get? x.key with
  | some row =>
    rw [if_pos (hs.state.mentioned_of_row hrow), Tableau.basicSolution_of_get? hrow]
  | none =>
    simp only [hbalanced.contains_references_iff, Tableau.basicSolution_of_get?_eq_none hrow]

/-- With any tolerance for signs and any strengths, after any run that leaves the solver with
values, of which operations may have failed and constraints may have come and gone, in a batch or
not: a variable is not found if and only if no constraint that is held mentions it, and every layout
variable that is basic, or that a row or the objective mentions, is mentioned by a constraint that
is held. -/
theorem run_read_eq_notFound_iff (hos : ∀ o ∈ os, o.Reduced)
    (hpoisoned : ((ofConfig config).run os).poisoned = false) :
    (∀ x, ((ofConfig config).run os).read x = .notFound ↔
      ¬ ((ofConfig config).run os).state.Mentioned x.key) ∧
    ∀ k, k.unrestricted = true → ((ofConfig config).run os).state.tableau.Mentions k →
      ((ofConfig config).run os).state.Mentioned k := by
  have hrest : ((ofConfig config).run os).AtRest config := Reachable.atRest ⟨os, rfl⟩
  have hbalanced : ((ofConfig config).run os).Balanced := (run_balanced hos).1
  have hsound : ((ofConfig config).run os).Sound False False :=
    sound_run False.elim (fun o ho => (hos o ho).overLayout.lawful) (fun hexact => hexact.elim) hpoisoned
  refine ⟨fun x => ?_, fun k => hsound.state.mentioned_of_mentions hrest.tableau.artificial⟩
  rw [hsound.read_eq hbalanced.state hpoisoned]
  split
  · next hmentioned => simpa using hmentioned
  · next hnot => simpa using hnot

/-- Variables come and go: one with the constraints before `clear`, and one with the only constraint
on it, in a batch. A required equality is refused at the end. -/
def passing : List (Operation Rat) :=
  [.insert ((Variable.external 3).heldAt 1) .required, .clear,
    .startEdit (.external 0) .strong,
    .insert (.ofFormulas (.var (.external 1)) .greaterOrEqual (.var (.external 0))) .required,
    .insert (.ofFormulas (.var (.external 2)) .equal (.var (.external 1))) .medium,
    .suggest (.external 0) 7, .openBatch,
    .insert (.ofFormulas (.var (.external 1)) .lessOrEqual (.number 5)) .required,
    .remove ⟨.ofIndex .error false 3, some (.ofIndex .error false 4)⟩, .closeBatch,
    .insert ((Variable.external 1).heldAt 6) .required]

theorem run_read_eq_notFound_iff_passing :
    ((ofConfig ⟨1e-3, true, 100⟩).run passing).failures = 1 ∧
    ((ofConfig ⟨1e-3, true, 100⟩).run passing).removals = 1 ∧
    ((ofConfig ⟨1e-3, true, 100⟩).run passing).read (.external 1) = .value 5 ∧
    ((ofConfig ⟨1e-3, true, 100⟩).run passing).read (.external 2) = .notFound ∧
    ¬ ((ofConfig ⟨1e-3, true, 100⟩).run passing).state.Mentioned (Variable.external 2).key ∧
    ((ofConfig ⟨1e-3, true, 100⟩).run passing).state.Mentioned (Variable.external 0).key := by
  have hreduced : ∀ o ∈ passing, o.Reduced := by
    intro o ho
    simp only [passing, List.mem_cons, List.not_mem_nil, or_false] at ho
    rcases ho with rfl | rfl | rfl | rfl | rfl | rfl | rfl | rfl | rfl | rfl | rfl
    all_goals first | trivial | exact ⟨_, .equal, _, rfl⟩ | exact ⟨_, _, _, rfl⟩
  have hread := @run_read_eq_notFound_iff ⟨1e-3, true, 100⟩ passing hreduced (by decide +kernel)
  have hgone : ((ofConfig ⟨1e-3, true, 100⟩).run passing).read (.external 2) = .notFound := by
    decide +kernel
  exact ⟨by decide +kernel, by decide +kernel, by decide +kernel, hgone, (hread.1 _).mp hgone,
    hread.2 _ rfl (.basic (by decide +kernel))⟩

end Solver

end Cassowary
