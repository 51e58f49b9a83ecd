import Cassowary.Proofs.Separation

/-!
# The tableaux that a loop goes through

A simplex method asks its rule for a pivot, makes it, and asks again. So a method ends at a tableau
that some pivots by the rule lead to, whether it succeeds, finds nothing that it could pivot, or is
cut short by its limit, and the rule tells which it is. What every pivot by the rule keeps holds of
all tableaux on the way.

## Main definitions

* `Tableau.afterPivots` — the tableau after some pivots by a rule
* `Tableau.Limited` — a method that pivots by a rule as often as its limit allows

## Main results

* `Tableau.of_afterPivots` — what every pivot keeps
* `Tableau.ensures_iterate_afterPivots` — where a loop ends
* `Tableau.iterate_eq_ok_iff`, `Tableau.iterate_eq_limit_iff` — when a loop ends, and when it is cut
  short
* `Tableau.pivots_of_afterPivots` — pivots are counted
-/

namespace Cassowary

namespace Tableau

open Attempt

variable {α : Type} [Scalar α] {t t' : Tableau α}

/-- The tableau after a number of pivots by a rule, unless the rule stops before. -/
def afterPivots (rule : Tableau α → Choice × Tableau α) : Nat → Tableau α → Option (Tableau α)
  | 0, t => some t
  | n + 1, t => match rule t with
    | (.pivot entering leaving, t) => afterPivots rule n (t.pivot entering leaving)
    | _ => none

variable {rule : Tableau α → Choice × Tableau α} {limit budget n : Nat} {u : Tableau α}

/-- What every pivot by a rule keeps holds after any number of them. -/
theorem of_afterPivots {P : Tableau α → Prop}
    (hpivot : ∀ {t t' entering leaving}, P t → rule t = (.pivot entering leaving, t') →
      P (t'.pivot entering leaving)) (ht : P t) (h : afterPivots rule n t = some t') : P t' := by
  induction n generalizing t with
  | zero =>
    cases h
    exact ht
  | succ n ih =>
    unfold afterPivots at h
    split at h
    · next hchoice => exact ih (hpivot ht hchoice) h
    · cases h

/-- A loop ends at a tableau that it has pivoted to within its budget. If it fails, it is because
the rule finds no pivot there, or because the budget has been used up and the rule asks for another
pivot. -/
theorem ensures_iterate_afterPivots : Ensures (iterate rule limit budget) t
    (fun _ u => ∃ n ≤ budget, ∃ t₁, afterPivots rule n t = some t₁ ∧ rule t₁ = (.finished, u))
    fun cause u => ∃ n ≤ budget, ∃ t₁, afterPivots rule n t = some t₁ ∧
      (rule t₁ = (.impossible cause, u) ∨ n = budget ∧ cause = .iterationLimit limit ∧
        ∃ entering leaving, rule t₁ = (.pivot entering leaving, u)) := by
  induction budget generalizing t with
  | zero =>
    unfold Ensures iterate
    cases hchoice : rule t with
    | mk choice u =>
      cases choice with
      | finished => exact ⟨0, le_rfl, t, rfl, hchoice⟩
      | impossible cause => exact ⟨0, le_rfl, t, rfl, .inl hchoice⟩
      | pivot entering leaving =>
        exact ⟨0, le_rfl, t, rfl, .inr ⟨rfl, rfl, entering, leaving, hchoice⟩⟩
  | succ budget ih =>
    unfold Ensures iterate
    cases hchoice : rule t with
    | mk choice u =>
      cases choice with
      | finished => exact ⟨0, Nat.zero_le _, t, rfl, hchoice⟩
      | impossible cause => exact ⟨0, Nat.zero_le _, t, rfl, .inl hchoice⟩
      | pivot entering leaving =>
        have hmore : ∀ n, afterPivots rule (n + 1) t =
            afterPivots rule n (u.pivot entering leaving) := fun n => by
          rw [afterPivots, hchoice]
        refine (ih (t := u.pivot entering leaving)).imp ?_ ?_
        · rintro - u' ⟨n, hn, t₁, ht₁, hfinished⟩
          exact ⟨n + 1, Nat.succ_le_succ hn, t₁, (hmore n).trans ht₁, hfinished⟩
        · rintro cause u' ⟨n, hn, t₁, ht₁, hend⟩
          exact ⟨n + 1, Nat.succ_le_succ hn, t₁, (hmore n).trans ht₁,
            hend.imp_right (.imp_left (congrArg (· + 1)))⟩

/-- The pivots that lead to the end are none, or one and the others. -/
theorem exists_afterPivots_iff :
    (∃ n ≤ budget, ∃ t₁, afterPivots rule n t = some t₁ ∧ rule t₁ = (.finished, u)) ↔
      rule t = (.finished, u) ∨ ∃ n < budget, ∃ t₁, afterPivots rule (n + 1) t = some t₁ ∧
        rule t₁ = (.finished, u) := by
  constructor
  · rintro ⟨n, hn, t₁, ht₁, hfinished⟩
    cases n with
    | zero =>
      cases ht₁
      exact .inl hfinished
    | succ n => exact .inr ⟨n, hn, t₁, ht₁, hfinished⟩
  · rintro (hfinished | ⟨n, hn, hafter⟩)
    · exact ⟨0, Nat.zero_le _, t, rfl, hfinished⟩
    · exact ⟨n + 1, hn, hafter⟩

/-- A loop ends where the rule is finished, if no more pivots lead there than there may be. -/
theorem iterate_eq_ok_iff : iterate rule limit budget t = .ok () u ↔
    ∃ n ≤ budget, ∃ t₁, afterPivots rule n t = some t₁ ∧ rule t₁ = (.finished, u) := by
  induction budget generalizing t with
  | zero =>
    rw [exists_afterPivots_iff]
    unfold iterate
    cases hchoice : rule t with
    | mk choice t' => cases choice <;> simp
  | succ budget ih =>
    rw [exists_afterPivots_iff]
    unfold iterate afterPivots
    cases hchoice : rule t with
    | mk choice t' =>
      cases choice with
      | finished => simp
      | impossible cause => simp
      | pivot entering leaving =>
        simp only [ih, Prod.mk.injEq, reduceCtorEq, false_and, false_or, Nat.lt_add_one_iff]

/-- A loop is cut short where the rule asks for one more pivot than there may be. -/
theorem iterate_eq_limit_iff (hcause : ∀ t t' n, rule t ≠ (.impossible (.iterationLimit n), t')) :
    iterate rule limit budget t = .error (.iterationLimit n) u ↔
      n = limit ∧ ∃ t₁ entering leaving, afterPivots rule budget t = some t₁ ∧
        rule t₁ = (.pivot entering leaving, u) := by
  induction budget generalizing t with
  | zero =>
    unfold iterate afterPivots
    cases hchoice : rule t with
    | mk choice t' =>
      cases choice with
      | finished => simp [hchoice]
      | impossible cause =>
        have hnever : cause ≠ .iterationLimit n := fun heq => hcause t t' n (heq ▸ hchoice)
        simp [hchoice, hnever]
      | pivot entering leaving => simp [hchoice, eq_comm]
  -- A pivot that is made counts against the budget on both sides
  | succ budget ih =>
    unfold iterate afterPivots
    cases hchoice : rule t with
    | mk choice t' =>
      cases choice with
      | finished => simp
      | impossible cause =>
        have hnever : cause ≠ .iterationLimit n := fun heq => hcause t t' n (heq ▸ hchoice)
        simp [hnever]
      | pivot entering leaving => exact ih

/-- Pivots that a rule asks for are counted, unless the rule counts itself or names a row that is
not there. -/
theorem pivots_of_afterPivots {t₁ : Tableau α}
    (hcount : ∀ t t' entering leaving, rule t = (.pivot entering leaving, t') →
      (t'.pivot entering leaving).pivots = t.pivots + 1)
    (h : afterPivots rule n t = some t₁) : t₁.pivots = t.pivots + n := by
  induction n generalizing t with
  | zero =>
    cases h
    rfl
  | succ n ih =>
    unfold afterPivots at h
    split at h
    · next entering leaving t' hchoice =>
      have hone := hcount t t' entering leaving hchoice
      rw [ih h, hone, Nat.add_assoc, Nat.add_comm 1 n]
    · cases h

theorem pivots_primalRule {target : Target} {t' : Tableau α} {entering leaving : Key}
    (h : primalRule target t = (.pivot entering leaving, t')) :
    (t'.pivot entering leaving).pivots = t.pivots + 1 := by
  obtain ⟨rfl, row, -, -, hleaving⟩ := primalRule_pivot h
  obtain ⟨leavingRow, hrow, -⟩ := leaving?_eq_some hleaving
  exact pivots_pivot hrow

theorem pivots_dualRule {t' : Tableau α} {entering leaving : Key}
    (h : dualRule t = (.pivot entering leaving, t')) :
    (t'.pivot entering leaving).pivots = t.pivots + 1 := by
  obtain ⟨row, rest, rfl, hnext, -⟩ := dualRule_pivot h
  exact pivots_pivot (nextViolated_eq_some hnext).1

/-- A method pivots by a rule, and as often as the limit allows: it succeeds if the rule is finished
after no more pivots than that, and it fails for the limit if the rule asks for one more. -/
structure Limited (method : Attempt (Tableau α) Unit) (rule : Tableau α → Choice × Tableau α) :
    Prop where
  ok_iff : ∀ {t u}, method t = .ok () u ↔
    ∃ n ≤ t.maxIterations, ∃ t₁, afterPivots rule n t = some t₁ ∧ rule t₁ = (.finished, u)
  limit_iff : ∀ {t u n}, method t = .error (.iterationLimit n) u ↔
    n = t.maxIterations ∧ ∃ t₁ entering leaving, afterPivots rule n t = some t₁ ∧
      rule t₁ = (.pivot entering leaving, u)
  pivots : ∀ {t t₁ n}, afterPivots rule n t = some t₁ → (rule t₁).2.pivots = t.pivots + n

theorem limited_of_rule {rule : Tableau α → Choice × Tableau α}
    (hcause : ∀ t t' n, rule t ≠ (.impossible (.iterationLimit n), t'))
    (hkeeps : ∀ t, (rule t).2.pivots = t.pivots)
    (hcount : ∀ t t' entering leaving, rule t = (.pivot entering leaving, t') →
      (t'.pivot entering leaving).pivots = t.pivots + 1) :
    Limited (fun t => iterate rule t.maxIterations t.maxIterations t) rule where
  ok_iff := iterate_eq_ok_iff
  limit_iff := by
    intro t u n
    rw [iterate_eq_limit_iff hcause]
    exact and_congr_right fun hn => by rw [hn]
  pivots h := (hkeeps _).trans (pivots_of_afterPivots hcount h)

theorem limited_optimize (target : Target) :
    Limited (optimize (α := α) target) (primalRule target) := by
  refine limited_of_rule (fun t t' n h => ?_) (fun t => ?_) fun t t' entering leaving =>
    pivots_primalRule
  · cases (primalRule_impossible h).2.1
  · unfold primalRule
    split
    · rfl
    · split <;> rfl

theorem limited_dualOptimize : Limited (dualOptimize (α := α)) dualRule := by
  refine limited_of_rule (fun t t' n h => ?_) (fun t => ?_) fun t t' entering leaving =>
    pivots_dualRule
  · cases (dualRule_impossible h).1
  · unfold dualRule
    split
    · rfl
    · dsimp only
      split <;> rfl

end Tableau

end Cassowary
