import Mathlib.Data.Set.Finite.Lemmas
import Cassowary.Proofs.Row
import Cassowary.Proofs.Simplex
import Cassowary.Solver.Run

/-!
# Ratios that are as good as equal

The dual rule goes through the terms of a row once, from the left. A candidate takes the place of
the best one so far if its ratio is smaller by more than the tolerance, or if the two are within the
tolerance of each other and its key is smaller. Of two candidates one is preferred in this way, and
the other one is not. But that need not order three of them: the first ratio may be within the
tolerance of the second one, the second of the third, and the first not of the third.

So the order of the terms matters, unless a candidate is preferred to each of the others. That one
is picked in every order, and its ratio is within the tolerance of the smallest. There is such a
candidate if being within the tolerance carries over from ratio to ratio, as it does where there is
no tolerance. Otherwise the pass may climb by up to the tolerance with every candidate.

## Main definitions

* `Tableau.Preferred` — a candidate that takes the place of another one
* `Tableau.Unrivalled` — a candidate that is preferred to each of the others
* `Tableau.Clustered` — being within the tolerance carries over

## Main results

* `Tableau.dualEntering?_order` — when the order of the terms does not matter, and what is picked
-/

namespace Cassowary

/-! ## The best of a list in any order -/

section Best

variable {β : Type} {better : Option β → β → Bool} {l : List β} {best : Option β} {w : β}

/-- Something that is better than all others, and that none of them is better than, is the best in
the end, wherever it stands. -/
theorem foldl_best_of_unrivalled (hnone : better none w = true)
    (hwins : ∀ b ∈ l, b ≠ w → better (some b) w = true)
    (hkeeps : ∀ c ∈ l, c ≠ w → better (some w) c = false)
    (h : best = some w ∨ w ∈ l ∧ ∀ b, best = some b → b ≠ w → better (some b) w = true) :
    l.foldl (fun best c => if better best c then some c else best) best = some w := by
  induction l generalizing best with
  | nil => exact h.resolve_right fun hmem => List.not_mem_nil hmem.1
  | cons c rest ih =>
    rw [List.foldl_cons]
    refine ih (fun b hb => hwins b (List.mem_cons_of_mem _ hb))
      (fun c hc => hkeeps c (List.mem_cons_of_mem _ hc)) ?_
    by_cases hc : c = w
    · subst hc
      left
      split
      · rfl
      · next hnot =>
        rcases h with rfl | ⟨-, hbest⟩
        · rfl
        · cases best with
          | none => exact absurd hnone hnot
          | some b =>
            by_cases hb : b = c
            · rw [hb]
            · exact absurd (hbest b rfl hb) hnot
    · rcases h with rfl | ⟨hmem, hbest⟩
      · left
        rw [hkeeps c List.mem_cons_self hc, if_neg Bool.false_ne_true]
      · right
        refine ⟨(List.mem_cons.mp hmem).resolve_left (Ne.symm hc), fun b hb => ?_⟩
        split at hb
        · cases hb
          exact hwins c List.mem_cons_self
        · exact hbest b hb

end Best

namespace Tableau

variable {t : Tableau Rat} {row row' : Row Rat} {epsilon : Rat} {b c d : Term Key Rat}
  {l : List (Term Key Rat)}

/-! ## Preferences -/

/-- A candidate takes the place of another one: its ratio is smaller by more than the tolerance, or
it is as good as equal and the key is smaller. -/
def Preferred (epsilon : Rat) (c b : Term Key Rat) : Prop :=
  c.coefficient < b.coefficient - epsilon ∨ c.coefficient ≤ b.coefficient + epsilon ∧ c.var < b.var

/-- Whether a candidate takes the place of the best one so far, if there is one. -/
def prefers (epsilon : Rat) : Option (Term Key Rat) → Term Key Rat → Bool
  | some b, c =>
    decide (c.coefficient < b.coefficient - epsilon) ||
      (decide (c.coefficient ≤ b.coefficient + epsilon) && decide (c.var < b.var))
  | none, _ => true

theorem prefers_iff : prefers epsilon (some b) c = true ↔ Preferred epsilon c b := by
  rw [prefers, Bool.or_eq_true, Bool.and_eq_true, decide_eq_true_eq, decide_eq_true_eq,
    decide_eq_true_eq, Preferred]

theorem prefers_eq_false_iff : prefers epsilon (some b) c = false ↔ ¬ Preferred epsilon c b := by
  rw [← prefers_iff, Bool.not_eq_true]

/-- The dual rule goes through the candidates once. -/
theorem dualEntering?_eq : t.dualEntering? row = ((t.dualCandidates row).foldl
    (fun best c => if prefers t.epsilon best c then some c else best) none).map (·.var) := by
  refine congrArg (Option.map _) (congrArg (fun f => List.foldl f none (t.dualCandidates row)) ?_)
  funext best c
  cases best <;> rfl

/-- Of two candidates with different keys one is preferred. -/
theorem preferred_or (epsilon : Rat) (h : b.var ≠ c.var) :
    Preferred epsilon b c ∨ Preferred epsilon c b := by
  unfold Preferred
  by_cases hbc : b.coefficient < c.coefficient - epsilon
  · exact .inl (.inl hbc)
  by_cases hcb : c.coefficient < b.coefficient - epsilon
  · exact .inr (.inl hcb)
  rcases Key.lt_or_lt_of_ne h with hlt | hlt
  · exact .inl (.inr ⟨by linarith, hlt⟩)
  · exact .inr (.inr ⟨by linarith, hlt⟩)

/-- Of two candidates at most one is preferred to the other. -/
theorem Preferred.asymm (hepsilon : 0 ≤ epsilon) (h : Preferred epsilon b c) :
    ¬ Preferred epsilon c b := by
  rintro (hlt | ⟨hle, hkey⟩)
  · rcases h with hlt' | ⟨hle', -⟩ <;> linarith
  · rcases h with hlt' | ⟨-, hkey'⟩
    · linarith
    · exact Key.lt_asymm hkey hkey'

theorem Preferred.le (hepsilon : 0 ≤ epsilon) (h : Preferred epsilon b c) :
    b.coefficient ≤ c.coefficient + epsilon := by
  rcases h with hlt | ⟨hle, -⟩
  · linarith
  · exact hle

theorem le_of_not_preferred (h : ¬ Preferred epsilon b c) :
    c.coefficient ≤ b.coefficient + epsilon := by
  have hnot := mt Or.inl h
  linarith

/-- A candidate that is preferred to each of the others. -/
def Unrivalled (epsilon : Rat) (l : List (Term Key Rat)) (c : Term Key Rat) : Prop :=
  c ∈ l ∧ ∀ d ∈ l, d ≠ c → Preferred epsilon c d

/-- The order of the candidates does not matter: there are none, or one is unrivalled. -/
def Settled (epsilon : Rat) (l : List (Term Key Rat)) : Prop := l = [] ∨ ∃ c, Unrivalled epsilon l c

/-- Being within the tolerance carries over from ratio to ratio. -/
def Clustered (epsilon : Rat) (l : List (Term Key Rat)) : Prop :=
  ∀ b ∈ l, ∀ c ∈ l, ∀ d ∈ l, |b.coefficient - c.coefficient| ≤ epsilon →
    |c.coefficient - d.coefficient| ≤ epsilon → |b.coefficient - d.coefficient| ≤ epsilon

instance (epsilon : Rat) (l : List (Term Key Rat)) : Decidable (Clustered epsilon l) :=
  List.decidableBAll _ _

/-- Without a tolerance, ratios are as good as equal if they are equal. -/
theorem clustered_zero (l : List (Term Key Rat)) : Clustered 0 l := by
  intro b _ c _ d _ hbc hcd
  rw [abs_nonpos_iff, sub_eq_zero] at *
  exact hbc.trans hcd

/-! ## The candidates of a row -/

/-- The keys of the candidates are distinct, as those of the terms are. -/
theorem nodup_dualCandidates (t : Tableau Rat) (row : Row Rat) :
    ((t.dualCandidates row).map (·.var)).Nodup := by
  have hterms : row.terms.Pairwise fun b c => b.var ≠ c.var := by
    apply List.pairwise_map.mp
    rw [Row.map_var_terms]
    exact row.cells.nodup_keys
  refine List.pairwise_map.mpr (hterms.filterMap _ fun b c hne b' hb' c' hc' => ?_)
  rwa [← (dualCandidate?_eq_some.mp hb').1, ← (dualCandidate?_eq_some.mp hc').1]

theorem var_ne_of_mem (hb : b ∈ t.dualCandidates row) (hc : c ∈ t.dualCandidates row)
    (hne : b ≠ c) : b.var ≠ c.var :=
  fun heq => hne (List.inj_on_of_nodup_map (nodup_dualCandidates t row) hb hc heq)

/-- The terms in another order have the same candidates, in another order. -/
theorem perm_dualCandidates (h : row'.terms.Perm row.terms) :
    (t.dualCandidates row').Perm (t.dualCandidates row) := h.filterMap _

/-! ## What is picked -/

theorem dualEntering?_of_nil (h : t.dualCandidates row = []) : t.dualEntering? row = none := by
  rw [dualEntering?_eq, h]
  rfl

/-- What is picked is a candidate. -/
theorem exists_mem_of_dualEntering? {k : Key} (h : t.dualEntering? row = some k) :
    ∃ c ∈ t.dualCandidates row, c.var = k := by
  rw [dualEntering?_eq] at h
  obtain ⟨c, hbest, rfl⟩ := Option.map_eq_some_iff.mp h
  exact ⟨c, (mem_of_foldl_best hbest).resolve_right nofun, rfl⟩

/-- An unrivalled candidate is picked, wherever it stands. -/
theorem Unrivalled.dualEntering? (hepsilon : 0 ≤ t.epsilon)
    (h : Unrivalled t.epsilon (t.dualCandidates row) c) : t.dualEntering? row = some c.var := by
  have hbest : (t.dualCandidates row).foldl
      (fun best c => if prefers t.epsilon best c then some c else best) none = some c :=
    foldl_best_of_unrivalled rfl (fun b hb hne => prefers_iff.mpr (h.2 b hb hne))
      (fun b hb hne => prefers_eq_false_iff.mpr ((h.2 b hb hne).asymm hepsilon))
      (.inr ⟨h.1, nofun⟩)
  rw [dualEntering?_eq, hbest]
  rfl

/-- The ratio of an unrivalled candidate exceeds no other ratio by more than the tolerance. -/
theorem Unrivalled.le (hepsilon : 0 ≤ epsilon) (h : Unrivalled epsilon l c) (hd : d ∈ l) :
    c.coefficient ≤ d.coefficient + epsilon := by
  by_cases hne : d = c
  · rw [hne]
    linarith
  · exact (h.2 d hd hne).le hepsilon

theorem Unrivalled.perm {l' : List (Term Key Rat)} (h : Unrivalled epsilon l c)
    (hperm : l'.Perm l) : Unrivalled epsilon l' c :=
  ⟨hperm.mem_iff.mpr h.1, fun d hd => h.2 d (hperm.mem_iff.mp hd)⟩

/-- With each candidate, the pass climbs by no more than the tolerance. -/
theorem foldl_prefers_le (hepsilon : 0 ≤ epsilon)
    (h : l.foldl (fun best c => if prefers epsilon best c then some c else best) (some b) =
      some c) :
    ∀ d ∈ b :: l, c.coefficient ≤ d.coefficient + l.length * epsilon := by
  induction l generalizing b with
  | nil =>
    cases h
    simp
  | cons a rest ih =>
    have hlength : ((a :: rest).length : Rat) * epsilon = rest.length * epsilon + epsilon := by
      rw [List.length_cons]
      push_cast
      ring
    rw [List.foldl_cons] at h
    rw [hlength]
    by_cases hprefers : Preferred epsilon a b
    · rw [if_pos (prefers_iff.mpr hprefers)] at h
      have hrest := ih h
      intro d hd
      rcases List.mem_cons.mp hd with rfl | hd
      · linarith [hrest a List.mem_cons_self, hprefers.le hepsilon]
      · linarith [hrest d hd]
    · rw [if_neg (mt prefers_iff.mp hprefers)] at h
      have hrest := ih h
      intro d hd
      rcases List.mem_cons.mp hd with rfl | hd
      · linarith [hrest d List.mem_cons_self]
      · rcases List.mem_cons.mp hd with rfl | hd
        · linarith [hrest b List.mem_cons_self, le_of_not_preferred hprefers]
        · linarith [hrest d (List.mem_cons_of_mem _ hd)]

theorem dualEntering?_le_add (hepsilon : 0 ≤ t.epsilon) (hc : c ∈ t.dualCandidates row)
    (h : t.dualEntering? row = some c.var) (hd : d ∈ t.dualCandidates row) :
    c.coefficient ≤ d.coefficient + ((t.dualCandidates row).length - 1 : Nat) * t.epsilon := by
  rw [dualEntering?_eq] at h
  obtain ⟨c', hbest, hvar⟩ := Option.map_eq_some_iff.mp h
  have hc' : c' ∈ t.dualCandidates row := (mem_of_foldl_best hbest).resolve_right nofun
  have hsame : c' = c := by_contra fun hne => var_ne_of_mem hc' hc hne hvar
  rw [hsame] at hbest
  cases hl : t.dualCandidates row with
  | nil =>
    rw [hl] at hd
    cases hd
  | cons a rest =>
    rw [hl] at hbest hd
    exact foldl_prefers_le hepsilon (b := a) hbest d hd

/-! ## When the order matters -/

/-- A row may have its terms in any order. -/
theorem exists_terms_eq_of_perm {ts : List (Term Key Rat)} (h : ts.Perm row.terms) :
    ∃ row' : Row Rat, row'.terms = ts := by
  have hnodup : ((ts.map fun c => (c.var, c.coefficient)).map Prod.fst).Nodup := by
    rw [List.map_map]
    refine (h.map _).nodup_iff.mpr ?_
    change (row.terms.map (·.var)).Nodup
    rw [Row.map_var_terms]
    exact row.cells.nodup_keys
  refine ⟨⟨⟨_, hnodup⟩, 1, row.constant⟩, ?_⟩
  rw [Row.terms, List.map_map]
  refine (List.map_congr_left fun c _ => ?_).trans (List.map_id ts)
  simp only [Function.comp_apply, mul_one, id]

/-- Where a candidate comes first and another one, which is preferred to it, comes second, it is
not picked. -/
theorem exists_perm_dualEntering?_ne (hc : c ∈ t.dualCandidates row)
    (hd : d ∈ t.dualCandidates row) (hne : d ≠ c) (hprefers : Preferred t.epsilon d c) :
    ∃ row' : Row Rat, row'.terms.Perm row.terms ∧ t.dualEntering? row' ≠ some c.var := by
  obtain ⟨x, hx, hcandidate⟩ := List.mem_filterMap.mp hc
  obtain ⟨y, hy, hcandidate'⟩ := List.mem_filterMap.mp hd
  have hdiffer : y ≠ x := by
    rintro rfl
    exact hne (Option.some_inj.mp (hcandidate'.symm.trans hcandidate))
  -- The terms of the two are taken out and put in front
  have hperm : row.terms.Perm (x :: y :: (row.terms.erase x).erase y) :=
    (List.perm_cons_erase hx).trans
      ((List.perm_cons_erase ((List.mem_erase_of_ne hdiffer).mpr hy)).cons x)
  obtain ⟨row', hterms⟩ := exists_terms_eq_of_perm hperm.symm
  refine ⟨row', hterms ▸ hperm.symm, fun hpicked => ?_⟩
  obtain ⟨rest, hcandidates⟩ : ∃ rest, t.dualCandidates row' = c :: d :: rest := by
    rw [dualCandidates, hterms, List.filterMap_cons_some hcandidate,
      List.filterMap_cons_some hcandidate']
    exact ⟨_, rfl⟩
  have hnodup := nodup_dualCandidates t row'
  rw [dualEntering?_eq, hcandidates, List.foldl_cons, if_pos (by rfl), List.foldl_cons,
    if_pos (prefers_iff.mpr hprefers)] at hpicked
  rw [hcandidates, List.map_cons, List.nodup_cons] at hnodup
  obtain ⟨b, hbest, hvar⟩ := Option.map_eq_some_iff.mp hpicked
  have hb : b ∈ d :: rest := by
    rcases mem_of_foldl_best hbest with hmem | heq
    · exact List.mem_cons_of_mem _ hmem
    · cases heq
      exact List.mem_cons_self
  exact hnodup.1 (hvar ▸ List.mem_map_of_mem hb)

/-- If the order does not matter, what is picked is unrivalled. -/
theorem settled_of_forall_perm
    (h : ∀ row' : Row Rat, row'.terms.Perm row.terms → t.dualEntering? row' = t.dualEntering? row) :
    Settled t.epsilon (t.dualCandidates row) := by
  cases hpicked : t.dualEntering? row with
  | none =>
    rw [dualEntering?_eq] at hpicked
    exact .inl (foldl_best_eq_none (fun _ _ => rfl) (Option.map_eq_none_iff.mp hpicked))
  | some k =>
    obtain ⟨c, hc, rfl⟩ := exists_mem_of_dualEntering? hpicked
    refine .inr ⟨c, hc, fun d hd hne => ?_⟩
    refine (preferred_or t.epsilon (var_ne_of_mem hd hc hne)).resolve_left fun hprefers => ?_
    obtain ⟨row', hperm, hother⟩ := exists_perm_dualEntering?_ne hc hd hne hprefers
    exact hother ((h row' hperm).trans hpicked)

/-- If being within the tolerance carries over, the smallest key among the ratios that are within it
of the smallest one is unrivalled. -/
theorem Clustered.settled (hepsilon : 0 ≤ epsilon) (h : Clustered epsilon l)
    (hnodup : (l.map (·.var)).Nodup) : Settled epsilon l := by
  rcases l.eq_nil_or_concat' with hnil | hcons
  · exact .inl hnil
  have hne : {c | c ∈ l}.Nonempty := by
    obtain ⟨_, c, rfl⟩ := hcons
    exact ⟨c, List.mem_append_right _ List.mem_cons_self⟩
  obtain ⟨m, hm, hleast⟩ := Set.exists_min_image _ Term.coefficient l.finite_toSet hne
  obtain ⟨c, ⟨hc, hnear⟩, hfirst⟩ := Set.exists_min_image
    {c | c ∈ l ∧ c.coefficient ≤ m.coefficient + epsilon} (fun c => c.var.pack.toNat)
    (l.finite_toSet.subset fun c hc => hc.1) ⟨m, hm, le_add_of_nonneg_right hepsilon⟩
  -- What is above the smallest ratio by at most the tolerance is within it
  have hwithin : ∀ d ∈ l, d.coefficient ≤ m.coefficient + epsilon ↔
      |m.coefficient - d.coefficient| ≤ epsilon := fun d hd => by
    rw [abs_sub_comm, abs_of_nonneg (sub_nonneg.mpr (hleast d hd)), sub_le_iff_le_add']
  refine .inr ⟨c, hc, fun d hd hdc => ?_⟩
  have hmc := (hwithin c hc).mp hnear
  by_cases hd' : d.coefficient ≤ m.coefficient + epsilon
  · have hcd := h c hc m hm d hd (by rwa [abs_sub_comm]) ((hwithin d hd).mp hd')
    have hkey : c.var ≠ d.var := fun heq =>
      hdc (List.inj_on_of_nodup_map hnodup hd hc heq.symm)
    refine .inr ⟨by linarith [(abs_le.mp hcd).2], (Key.lt_or_lt_of_ne hkey).resolve_right ?_⟩
    exact Nat.not_lt.mpr (hfirst d ⟨hd, hd'⟩)
  · have hcd : ¬ |c.coefficient - d.coefficient| ≤ epsilon := fun hcd =>
      hd' ((hwithin d hd).mpr (h m hm c hc d hd hmc hcd))
    rw [abs_of_nonpos (by linarith)] at hcd
    exact .inl (by linarith)

/-- The order of the terms does not matter if and only if there is no candidate, or one that is
preferred to each of the others. That one is picked, and its ratio is within the tolerance of the
smallest. There is one if being within the tolerance carries over from ratio to ratio, in particular
without a tolerance. In any order, the ratio that is picked exceeds the smallest by at most the
tolerance times the number of the other candidates. -/
theorem dualEntering?_order (hepsilon : 0 ≤ t.epsilon) (row : Row Rat) :
    ((∀ row' : Row Rat, row'.terms.Perm row.terms →
        t.dualEntering? row' = t.dualEntering? row) ↔
      Settled t.epsilon (t.dualCandidates row)) ∧
    (∀ c, Unrivalled t.epsilon (t.dualCandidates row) c → t.dualEntering? row = some c.var ∧
      ∀ d ∈ t.dualCandidates row, c.coefficient ≤ d.coefficient + t.epsilon) ∧
    (t.epsilon = 0 ∨ Clustered t.epsilon (t.dualCandidates row) →
      Settled t.epsilon (t.dualCandidates row)) ∧
    ∀ c ∈ t.dualCandidates row, t.dualEntering? row = some c.var →
      ∀ d ∈ t.dualCandidates row, c.coefficient ≤
        d.coefficient + ((t.dualCandidates row).length - 1 : Nat) * t.epsilon := by
  refine ⟨⟨settled_of_forall_perm, ?_⟩,
    fun c hc => ⟨hc.dualEntering? hepsilon, fun d => hc.le hepsilon⟩, ?_,
    fun c hc hpicked d => dualEntering?_le_add hepsilon hc hpicked⟩
  · rintro (hnil | ⟨c, hc⟩) row' hperm
    · have hnil' : t.dualCandidates row' = [] := (hnil ▸ perm_dualCandidates hperm).eq_nil
      rw [dualEntering?_of_nil hnil, dualEntering?_of_nil hnil']
    · rw [hc.dualEntering? hepsilon, (hc.perm (perm_dualCandidates hperm)).dualEntering? hepsilon]
  · rintro (hzero | hclustered)
    · exact Clustered.settled hepsilon (hzero ▸ clustered_zero _) (nodup_dualCandidates t row)
    · exact hclustered.settled hepsilon (nodup_dualCandidates t row)

/-- Three slack variables at prices that are close to each other, each price within the tolerance of
the next one. -/
def priced (epsilon : Rat) : Tableau Rat :=
  { Tableau.empty epsilon 100 with
    objective := (Row.ofConstant 0).insertAll
      [⟨.ofIndex .slack false 0, 1 + 18 / 10 ^ 9⟩, ⟨.ofIndex .slack false 1, 1 + 9 / 10 ^ 9⟩,
        ⟨.ofIndex .slack false 2, 1⟩] }

/-- A row that is to be repaired by one of three slack variables, which stand in the given order. -/
def short (order : List Nat) : Row Rat :=
  (Row.ofConstant (-100)).insertAll (order.map fun n => ⟨.ofIndex .slack false n, 1⟩)

/-- Where the tolerance covers all three prices, the smallest key enters in every order. -/
theorem dualEntering?_order_priced :
    0 ≤ (priced (2 / 10 ^ 8)).epsilon ∧
    ∀ row' : Row Rat, row'.terms.Perm (short [2, 1, 0]).terms →
      (priced (2 / 10 ^ 8)).dualEntering? row' = some (.ofIndex .slack false 0) := by
  have hepsilon : 0 ≤ (priced (2 / 10 ^ 8)).epsilon := by decide +kernel
  have horder := dualEntering?_order hepsilon (short [2, 1, 0])
  have hsettled := horder.2.2.1 (.inr (by decide +kernel))
  have hpicked : (priced (2 / 10 ^ 8)).dualEntering? (short [2, 1, 0]) =
      some (.ofIndex .slack false 0) := by decide +kernel
  exact ⟨hepsilon, fun row' hperm => (horder.1.mpr hsettled row' hperm).trans hpicked⟩

end Tableau

namespace Solver

open Tableau

/-- Three variables that are drawn to zero, each at a price within the tolerance of the next one. -/
def leaning : List (Operation (Tolerant (1 / 10 ^ 8))) :=
  [.insert ((Variable.external 0).heldAt 0) ⟨1.000000018⟩,
    .insert ((Variable.external 1).heldAt 0) ⟨1.000000009⟩,
    .insert ((Variable.external 2).heldAt 0) .weak]

/-- The sum of some variables, written in the given order, is at least a hundred. -/
def totalling (order : List Nat) : Operation (Tolerant (1 / 10 ^ 8)) :=
  .insert (.ofFormulas (.form ⟨order.map fun n => ⟨.external n, 1⟩, 0⟩) .greaterOrEqual
    (.number 100)) .required

/-- With a tolerance that covers two neighbours but not all three prices, the one order picks the
largest price and the other one the smallest. The two differ by more than the tolerance. So with the
tolerances that are the defaults, it depends on the order in which a sum is written which variable
gives way to it, and it may be the one that is drawn to zero the most. -/
theorem dualEntering?_not_order :
    ((short [2, 1, 0]).terms.Perm (short [0, 1, 2]).terms ∧
      (priced (1 / 10 ^ 8)).dualEntering? (short [2, 1, 0]) = some (.ofIndex .slack false 0) ∧
      (priced (1 / 10 ^ 8)).dualEntering? (short [0, 1, 2]) = some (.ofIndex .slack false 2) ∧
      (priced (1 / 10 ^ 8)).objective.coefficientFor (.ofIndex .slack false 2) + 1 / 10 ^ 8 <
        (priced (1 / 10 ^ 8)).objective.coefficientFor (.ofIndex .slack false 0)) ∧
    ((ofConfig ⟨1 / 10 ^ 8, true, 100⟩).run (leaning ++ [totalling [2, 1, 0]])).read
        (.external 0) = .value 100 ∧
      ((ofConfig ⟨1 / 10 ^ 8, true, 100⟩).run (leaning ++ [totalling [0, 1, 2]])).read
        (.external 0) = .value 0 := by
  refine ⟨⟨?_, ?_, ?_, ?_⟩, ?_, ?_⟩ <;> decide +kernel

end Solver

end Cassowary
