import Cassowary.Proofs.Calm
import Cassowary.Proofs.Splitting
import Cassowary.Proofs.Star

/-!
# One column too many

The first column needs two symbols and each other one four, and there are `2 ^ 27` of them. With `2
^ 25 + 1` columns they are used up right before the bound of the last column is inserted, which
fails for that. Up to there, no constraint takes a pivot: the last width is still free, so the
bounds leave the slacks out of the basis, and the only symbols in it are the errors for what is too
much.

The batch is closed all the same. The errors have to leave the basis then, which takes one pivot for
each of them. If the limit allows these, the symbols are what is told of.

## Main definitions

* `Columns.spokes` — the symbols of the columns
* `Columns.Spread` — the solver before the constraints on the width of a column

## Main results

* `Columns.exists_spread` — the constraints on the first columns are taken in
* `Columns.solve_exhausted` — the answer to one column too many
-/

namespace Cassowary

open Finset (Ico)
open Attempt

namespace Solver

open Columns (insertAll)

variable {s : Solver Rat} {config : Config Rat} {cs : List (Constraint Rat × Strength Rat)}

/-- Beside nothing but required equalities, required equalities that can be met are taken in if
there are symbols enough. They cost nothing, and no symbol but dummies becomes basic. -/
theorem Working.insertAll_fixed (hs : s.Working config) (hopen : s.batch ≠ none)
    (hcs : ∀ e ∈ cs, (e.1.OverLayout ∧ 0 ≤ e.2.value) ∧ (e.1.shape e.2).fixed = true)
    (hfixed : ∀ b ∈ s.state.shapes, b.fixed = true)
    (hroom : s.state.tableau.nextId + symbolCount cs ≤ Key.maxIndex + 1)
    (hmet : ∃ v, ∀ e ∈ s.state.held ++ cs, e.2.isRequired = true → e.1.Holds v) :
    ∃ s', (insertAll cs).outcome s = (.ok (), s') ∧ s.Takes config cs s' ∧
      (∀ v, s'.state.charge v = s.state.charge v) ∧
      ∀ k, k.unrestricted = false → k.dummy = false → s'.state.tableau.isBasic k = true →
        s.state.tableau.isBasic k = true := by
  induction cs generalizing s with
  | nil => exact ⟨s, rfl, .refl hs, fun _ => rfl, fun _ _ _ => id⟩
  | cons e cs ih =>
    obtain ⟨⟨hc, hw⟩, he⟩ := hcs e List.mem_cons_self
    have hrequired : e.2.isRequired = true := (Bool.and_eq_true_iff.mp he).1
    have hcount : symbolCount (e :: cs) = (e.1.shape e.2).symbols + symbolCount cs := by
      simp [symbolCount]
    obtain ⟨v, hv⟩ := hmet
    -- An equality never hides beside equalities, and what else would be asked is not of its kind
    have hadmits : s.Admits e.1 e.2 :=
      ⟨Shape.not_hidden_of_fixed fun _ => hfixed, fun _ hloose => (by cases he.symm.trans hloose),
        fun hsoft => (by cases hrequired.symm.trans hsoft)⟩
    obtain ⟨h, s₁, hstep, htakes, hgains⟩ := hs.step_insert_calm hopen hc hw hadmits (by omega)
      ⟨v, fun e he => hv e (List.mem_append_left _ he),
        hv e (List.mem_append_right _ List.mem_cons_self)⟩
    have hshapes := htakes.shapes_eq hs
    have hnext := htakes.nextId
    have hone : symbolCount [e] = (e.1.shape e.2).symbols := by simp [symbolCount]
    obtain ⟨s', hfilled, htakes', hcharge, hbasic⟩ := ih htakes.working (htakes.batch ▸ hopen)
      (fun e he => hcs e (List.mem_cons_of_mem _ he))
      (by
        rw [hshapes]
        intro b hb
        rcases List.mem_append.mp hb with hb | hb
        · exact hfixed b hb
        · rw [List.map_singleton, List.mem_singleton] at hb
          exact hb ▸ he)
      (by rw [Prod.mk.eta] at hnext; omega)
      ⟨v, by rw [htakes.held, Prod.mk.eta, ← List.append_cons]; exact hv⟩
    have hfits := hgains.fits
    rw [hrequired] at hfits
    refine ⟨s', ?_, htakes.trans htakes', fun u => ?_, fun k hk hdummy hb => ?_⟩
    · rw [Columns.outcome_insertAll_cons, hstep]
      exact hfilled
    · rw [hcharge, hgains.charge_eq, hfits.price_of_required, add_zero]
    · refine (hgains.basic k hk hdummy (hbasic k hk hdummy hb)).resolve_right fun hother => ?_
      cases hfits.other_eq_none.symm.trans hother

end Solver

namespace Columns

open Solver (told symbolCount symbolCount_append)

variable {c : Columns Rat} {config : Config Rat} {s : Solver Rat} {v : Assignment Rat}
  {s' : Solver Rat} {b i j : Nat}

/-! ## The symbols of the columns -/

/-- The first one of the symbols of a column. -/
def symbolIndex (c : Columns Rat) (i : Nat) : Nat := c.count + 1 + (3 * i - 2)

/-- The slacks and errors of the columns. -/
def spokes (c : Columns Rat) : Spokes where
  slack i := .ofIndex .slack false (c.symbolIndex i)
  plus i := .ofIndex .error false (c.symbolIndex i + 1)
  minus i := .ofIndex .error false (c.symbolIndex i + 2)

/-- The symbols before a column are those of the constraints before it. -/
theorem symbolCount_eq (hn : c.count ≠ 0) (hb : b ≤ 2 ^ 26) :
    symbolCount (c.upTo b) = c.symbolIndex b := by
  cases b with
  | zero =>
    have hone := symbolCount_upTo hn (b := 0) (by norm_num)
    rw [upTo_succ, symbolCount_append, column, if_pos rfl, symbolCount_bound] at hone
    simp only [symbolIndex]
    omega
  | succ b =>
    rw [symbolCount_upTo hn hb, symbolIndex]
    omega

theorem value_bound : (c.bound i).value v = c.least - v.width i :=
  Constraint.value_ofFormulas_greaterOrEqual (by simp) (by simp)

theorem value_share : (share i).value v = v.width i - v.width 0 :=
  Constraint.value_ofFormulas_equal (by simp) (by simp)

/-- Widths of which one is given, and the last one takes what it leaves. -/
def spare (c : Columns Rat) (b : Nat) (x : Rat) (i : Nat) : Rat :=
  if i = b then x else if i + 1 = c.count then c.room - x else 0

section Spare

variable (hb : b + 1 < c.count) (hmax : c.count ≤ 2 ^ 26)
include hb

theorem spare_of_lt (x : Rat) (hi : i < b) : c.spare b x i = 0 := by
  have hlast : i + 1 ≠ c.count := by omega
  rw [spare, if_neg hi.ne, if_neg hlast]

theorem sum_spare (x : Rat) : ∑ i ∈ Finset.range c.count, c.spare b x i = c.room := by
  obtain ⟨m, hm⟩ : ∃ m, c.count = m + 1 := ⟨c.count - 1, by omega⟩
  have hfirst : ∀ i ∈ Finset.range m, c.spare b x i = if i = b then x else 0 := fun i hi => by
    have hlast : i + 1 ≠ c.count := by
      have := Finset.mem_range.mp hi
      omega
    rw [spare, if_neg hlast]
  have hlast : c.spare b x m = c.room - x := by
    have hne : m ≠ b := by omega
    rw [spare, if_neg hne, if_pos hm.symm]
  rw [hm, Finset.sum_range_succ, Finset.sum_congr rfl hfirst, hlast, Finset.sum_ite_eq',
    if_pos (Finset.mem_range.mpr (by omega)), add_sub_cancel]

include hmax

theorem width_spare (x : Rat) (hi : i ≤ b) : (c.lay (c.spare b x)).width i = c.spare b x i :=
  width_lay (by omega)

/-- The constraints before a column do not notice its width. -/
theorem value_spare {e : Constraint Rat × Strength Rat} (he : e ∈ c.upTo b) (x y : Rat) :
    e.1.value (c.lay (c.spare b x)) = e.1.value (c.lay (c.spare b y)) := by
  have hedge : e ∈ c.upTo 0 →
      e.1.value (c.lay (c.spare b x)) = e.1.value (c.lay (c.spare b y)) := fun he => by
    have hfixed := fixed_of_mem_edges (c := c) (by simpa [upTo] using he)
    obtain ⟨hrequired, hrelation⟩ := Bool.and_eq_true_iff.mp hfixed
    have hrelation : e.1.relation = .equal := of_decide_eq_true hrelation
    have hzero : ∀ x, e.1.value (c.lay (c.spare b x)) = 0 := fun x => by
      have hholds := holds_upTo_iff.mpr (fits_lay (by omega) hmax (Nat.zero_le _) (sum_spare hb x)
        fun i hi => absurd hi (Nat.not_lt_zero i)) e he hrequired
      rwa [Constraint.Holds, hrelation] at hholds
    rw [hzero, hzero]
  have hwidth : ∀ i < b, ∀ x, (c.lay (c.spare b x)).width i = 0 := fun i hi x => by
    rw [width_spare hb hmax x hi.le, spare_of_lt hb x hi]
  rcases mem_upTo.mp he with h | h | h | ⟨i, hi, rfl⟩ | ⟨i, hi, -, rfl⟩
  · exact hedge (mem_upTo.mpr (.inl h))
  · exact hedge (mem_upTo.mpr (.inr (.inl h)))
  · exact hedge (mem_upTo.mpr (.inr (.inr (.inl h))))
  · rw [value_bound, value_bound, hwidth i hi, hwidth i hi]
  · rw [value_share, value_share, hwidth i hi, hwidth i hi, hwidth 0 (Nat.zero_lt_of_lt hi),
      hwidth 0 (Nat.zero_lt_of_lt hi)]

/-- As long as another column comes after it, the width of a column is not settled by the
constraints before it. -/
theorem not_follows_bound :
    ¬ ((c.bound b).shape .required).Follows ((c.upTo b).map fun e => e.1.shape e.2) := by
  intro hfollows
  have hbound :
      (c.bound b).value (c.lay (c.spare b 0)) = (c.bound b).value (c.lay (c.spare b 1)) := by
    refine (Constraint.value_eq_iff_of_shape rfl _ _).mpr (hfollows _ _ fun a ha => ?_)
    obtain ⟨e, he, rfl⟩ := List.mem_map.mp ha
    exact (Constraint.value_eq_iff_of_shape rfl _ _).mp (value_spare hb hmax he 0 1)
  have hwidth : ∀ x, (c.lay (c.spare b x)).width b = x := fun x => by
    rw [width_spare hb hmax x le_rfl, spare, if_pos rfl]
  rw [value_bound, value_bound, hwidth, hwidth] at hbound
  linarith

end Spare

/-! ## Inserting the constraints on the widths -/

/-- The solver that has taken in constraints, among them the bounds of `b` columns and the
comparisons of those up to `d`. Their slacks and errors are where the equations say, the errors are
all that costs something, and of these symbols only errors for what is too much are basic. -/
structure Spread (c : Columns Rat) (config : Config Rat) (cs : List (Constraint Rat × Strength Rat))
    (b d : Nat) (s : Solver Rat) : Prop where
  takes : (opened config).Takes config cs s
  slack : ∀ v, s.state.Equations v → ∀ i < b, v (c.spokes.slack i) = v.width i - c.least
  minus : ∀ v, s.state.Equations v → ∀ i ∈ Ico 1 d,
    v (c.spokes.minus i) = v.width i - v.width 0 + v (c.spokes.plus i)
  charge : ∀ v, s.state.charge v =
    ∑ i ∈ Ico 1 d, 100 * (v (c.spokes.plus i) + v (c.spokes.minus i))
  basic : ∀ k, k.unrestricted = false → k.dummy = false → s.state.tableau.isBasic k = true →
    ∃ i ∈ Ico 1 d, k = c.spokes.minus i

namespace Spread

variable {cs : List (Constraint Rat × Strength Rat)} {d : Nat}

theorem batch_ne_none (h : c.Spread config cs b d s) : s.batch ≠ none :=
  h.takes.batch ▸ (opened_eq config).2.2

theorem shapes_eq (h : c.Spread config cs b d s) (hepsilon : config.epsilon = 0) :
    s.state.shapes = cs.map fun e => e.1.shape e.2 := by
  rw [h.takes.shapes_eq (working_opened hepsilon), (opened_eq config).2.1]
  rfl

theorem held_eq (h : c.Spread config cs b d s) : s.state.held = cs := by
  rw [h.takes.held, (opened_eq config).2.1]
  rfl

theorem nextId_eq (h : c.Spread config cs b d s) : s.state.tableau.nextId = symbolCount cs := by
  rw [h.takes.nextId, (opened_eq config).2.1]
  exact Nat.zero_add _

/-- A slack is not basic. -/
theorem isBasic_slack (h : c.Spread config cs b d s) (i : Nat) :
    s.state.tableau.isBasic (c.spokes.slack i) = false := Bool.eq_false_iff.mpr fun hb => by
  obtain ⟨j, -, heq⟩ := h.basic _ rfl rfl hb
  cases congrArg Key.kind heq

/-- All the widths that have bounds are at their bounds, as no slack is basic. -/
theorem width_eq (h : c.Spread config cs b d s) (hi : i < b) :
    s.state.tableau.basicSolution.width i = c.least := by
  have hslack := h.slack _ h.takes.working.sound.state.equations_basicSolution i hi
  rw [Tableau.basicSolution_of_get?_eq_none (Tableau.isBasic_eq_false_iff.mp (h.isBasic_slack i))]
    at hslack
  linarith

/-- The constraints on the edges are taken in. -/
theorem exists_edges (hepsilon : config.epsilon = 0) (hn : c.count ≠ 0) (hmax : c.count ≤ 2 ^ 26) :
    ∃ s, (insertAll (c.upTo 0)).outcome (opened config) = (.ok (), s) ∧
      c.Spread config (c.upTo 0) 0 0 s := by
  obtain ⟨-, hstate, hopen⟩ := opened_eq config
  obtain ⟨v, hv⟩ := exists_fits_of_lt hmax (Nat.pos_of_ne_zero hn)
  have hfixed : ∀ e ∈ c.upTo 0,
      (e.1.OverLayout ∧ 0 ≤ e.2.value) ∧ (e.1.shape e.2).fixed = true := fun e he =>
    ⟨overLayout_of_mem_upTo he, fixed_of_mem_edges (c := c) (by simpa [upTo] using he)⟩
  obtain ⟨s, hfilled, htakes, hcharge, hbasic⟩ := (working_opened hepsilon).insertAll_fixed hopen
    hfixed
    (by rw [hstate]; exact fun b hb => absurd hb List.not_mem_nil)
    (by
      rw [hstate, symbolCount_eq hn (Nat.zero_le _), Key.maxIndex_add_one, symbolIndex]
      show 0 + _ ≤ _
      omega)
    ⟨v, by rw [hstate]; exact fun e he => holds_upTo_iff.mpr hv e he⟩
  refine ⟨s, hfilled, htakes, fun _ _ i hi => absurd hi (Nat.not_lt_zero i), by simp,
    fun v => ?_, ?_⟩
  · rw [hcharge, hstate]
    rfl
  · intro k hk hdummy hb
    have hnone := hbasic k hk hdummy hb
    rw [hstate] at hnone
    cases hnone

/-- As long as another column comes after it and there are symbols enough, one more constraint on a
column is taken in, if it asks for no pivot. -/
theorem step_insert {d' : Nat} (h : c.Spread config cs b d s) {e : Constraint Rat} {w : Strength Rat}
    (hadmits : s.Admits e w) (hcs : ∀ x ∈ cs ++ [(e, w)], x ∈ c.upTo (d' + 1))
    (hd : d' + 1 < c.count) (hmax : c.count ≤ 2 ^ 26)
    (hroom : symbolCount (cs ++ [(e, w)]) ≤ 2 ^ 27) :
    ∃ handle s', s.step (.insert e w) = (.ok (.inserted handle), s') ∧
      (opened config).Takes config (cs ++ [(e, w)]) s' ∧ s.Gains e w handle s' := by
  obtain ⟨hc, hw⟩ := overLayout_of_mem_upTo (hcs (e, w) (by simp))
  obtain ⟨v, hv⟩ := exists_fits_of_lt hmax hd
  have hmet : ∀ x ∈ cs ++ [(e, w)], x.2.isRequired = true → x.1.Holds v := fun x hx =>
    holds_upTo_iff.mpr hv x (hcs x hx)
  have hspace : s.state.tableau.nextId + (e.shape w).symbols ≤ Key.maxIndex + 1 := by
    have hone : symbolCount [(e, w)] = (e.shape w).symbols := by simp [symbolCount]
    rw [symbolCount_append, hone] at hroom
    rwa [h.nextId_eq, Key.maxIndex_add_one]
  obtain ⟨handle, s', hstep, htakes, hgains⟩ := h.takes.working.step_insert_calm h.batch_ne_none
    hc hw hadmits hspace
    ⟨v, fun x hx => hmet x (List.mem_append_left _ (h.held_eq ▸ hx)), hmet (e, w) (by simp)⟩
  exact ⟨handle, s', hstep, h.takes.trans htakes, hgains⟩

/-- The bound on the next width is taken in, and no symbol becomes basic. -/
theorem step_bound (h : c.Spread config (c.upTo b) b b s) (hepsilon : config.epsilon = 0)
    (hb : b + 1 < c.count) (hmax : c.count ≤ 2 ^ 26) (hroom : c.symbolIndex (b + 1) ≤ 2 ^ 27) :
    ∃ handle s', s.step (.insert (c.bound b) .required) = (.ok (.inserted handle), s') ∧
      c.Spread config (c.upTo b ++ [(c.bound b, .required)]) (b + 1) b s' := by
  have hfixed : ((c.bound b).shape .required).fixed = false := Bool.and_eq_false_iff.mpr (.inr rfl)
  have hrequired := Strength.isRequired_required
  have hnext : s.state.tableau.nextId = c.symbolIndex b := by
    rw [h.nextId_eq, symbolCount_eq (by omega) (by omega)]
  have hadmits : s.Admits (c.bound b) .required := by
    refine ⟨fun hhidden => ?_, fun _ _ => ?_, fun hsoft => ?_⟩
    · cases hfixed.symm.trans hhidden.1
    · rw [h.shapes_eq hepsilon]
      exact not_follows_bound hb hmax
    · cases hrequired.symm.trans hsoft
  have hmem : ∀ x ∈ c.upTo b ++ [(c.bound b, .required)], x ∈ c.upTo (b + 1) := by
    intro x hx
    rcases List.mem_append.mp hx with hx | hx
    · rw [upTo_succ]
      exact List.mem_append_left _ hx
    · rw [List.mem_singleton.mp hx]
      exact mem_upTo.mpr (.inr (.inr (.inr (.inl ⟨b, Nat.lt_succ_self b, rfl⟩))))
  obtain ⟨handle, s', hstep, htakes, hgains⟩ := h.step_insert hadmits hmem hb hmax (by
    rw [symbolCount_append, symbolCount_eq (by omega) (by omega), symbolCount_bound]
    unfold symbolIndex at hroom ⊢
    omega)
  have hfits := hgains.fits
  have hissue := hgains.issue
  rw [hrequired] at hfits hissue
  obtain rfl := Handle.eq_of_issue_single rfl hissue
  rw [hnext] at hgains hfits
  refine ⟨_, s', hstep, htakes, fun v hv => ?_, fun v hv => ?_, fun v => ?_,
    fun k hk hdummy hb => ?_⟩
  · obtain ⟨hold, hequation⟩ := (hgains.equations_iff v).mp hv
    rw [Constraint.equation, value_bound] at hequation
    intro i hi
    rcases Nat.lt_succ_iff_lt_or_eq.mp hi with hi | rfl
    · exact h.slack v hold i hi
    · have hzero : c.least - v.width i + v (c.spokes.slack i) - 0 = 0 := hequation
      linarith
  · exact h.minus v ((hgains.equations_iff v).mp hv).1
  · rw [hgains.charge_eq, hfits.price_of_required, add_zero, h.charge]
  · refine h.basic k hk hdummy ((hgains.basic k hk hdummy hb).resolve_right fun hother => ?_)
    cases hother

/-- A width that has its bound is compared with the first one. Both are at the bound, so the
comparison is met, and the error for what is too much becomes basic. -/
theorem step_share (h : c.Spread config (c.upTo b ++ [(c.bound b, .required)]) (b + 1) b s)
    (hpos : 0 < b) (hb : b + 1 < c.count) (hmax : c.count ≤ 2 ^ 26)
    (hroom : c.symbolIndex (b + 1) ≤ 2 ^ 27) :
    ∃ handle s', s.step (.insert (share b) .medium) = (.ok (.inserted handle), s') ∧
      c.Spread config (c.upTo (b + 1)) (b + 1) (b + 1) s' := by
  have hne : width b ≠ width 0 := fun heq =>
    absurd (width_inj (by omega) (by norm_num) heq) (by omega)
  have hlist : c.upTo (b + 1) = c.upTo b ++ [(c.bound b, .required)] ++ [(share b, .medium)] := by
    rw [upTo_succ, column, if_neg hne]
    simp
  have hsoft := Strength.isRequired_medium
  have hnext : s.state.tableau.nextId = c.symbolIndex b + 1 := by
    rw [h.nextId_eq, symbolCount_append, symbolCount_eq (by omega) (by omega), symbolCount_bound]
  have hadmits : s.Admits (share b) .medium := by
    refine ⟨fun hhidden => ?_, fun hrequired => ?_, fun _ => ?_⟩
    · cases (Bool.and_eq_false_iff.mpr (.inl hsoft)).symm.trans hhidden.1
    · cases hsoft.symm.trans hrequired
    · rw [value_share, h.width_eq (Nat.lt_succ_self b), h.width_eq (Nat.succ_pos b), sub_self]
  obtain ⟨handle, s', hstep, htakes, hgains⟩ := h.step_insert hadmits (fun x hx => hlist ▸ hx) hb hmax
    (by rwa [← hlist, symbolCount_eq (by omega) (by omega)])
  have hfits := hgains.fits
  have hissue := hgains.issue
  rw [hsoft] at hfits hissue
  obtain ⟨rfl, -⟩ := Handle.eq_of_issue_pair rfl hissue
  rw [hnext] at hgains hfits
  refine ⟨_, s', hstep, hlist ▸ htakes, fun v hv => ?_, fun v hv => ?_, fun v => ?_,
    fun k hk hdummy hb => ?_⟩
  · exact h.slack v ((hgains.equations_iff v).mp hv).1
  · obtain ⟨hold, hequation⟩ := (hgains.equations_iff v).mp hv
    rw [Constraint.equation, value_share] at hequation
    intro i hi
    obtain ⟨hone, hlt⟩ := Finset.mem_Ico.mp hi
    rcases Nat.lt_succ_iff_lt_or_eq.mp hlt with hlt | rfl
    · exact h.minus v hold i (Finset.mem_Ico.mpr ⟨hone, hlt⟩)
    · have hzero : v.width i - v.width 0 + v (c.spokes.plus i) - v (c.spokes.minus i) = 0 :=
        hequation
      linarith
  · rw [hgains.charge_eq, hfits.price_of_equal rfl, Strength.value_medium, h.charge,
      Finset.sum_Ico_succ_top hpos]
    rfl
  · rcases hgains.basic k hk hdummy hb with hold | hother
    · obtain ⟨i, hi, heq⟩ := h.basic k hk hdummy hold
      exact ⟨i, Finset.Ico_subset_Ico_right (Nat.le_succ b) hi, heq⟩
    · exact ⟨b, Finset.mem_Ico.mpr ⟨hpos, Nat.lt_succ_self b⟩, (Option.some_inj.mp hother).symm⟩

/-- The constraints on the next width are taken in. -/
theorem exists_succ (h : c.Spread config (c.upTo b) b b s) (hepsilon : config.epsilon = 0)
    (hb : b + 1 < c.count) (hmax : c.count ≤ 2 ^ 26) (hroom : c.symbolIndex (b + 1) ≤ 2 ^ 27) :
    ∃ s', (insertAll (c.column b)).outcome s = (.ok (), s') ∧
      c.Spread config (c.upTo (b + 1)) (b + 1) (b + 1) s' := by
  obtain ⟨handle, s₁, hstep, h₁⟩ := h.step_bound hepsilon hb hmax hroom
  rcases Nat.eq_zero_or_pos b with rfl | hpos
  · refine ⟨s₁, ?_, ?_, h₁.slack, by simp, fun v => ?_, fun k hk hdummy hb => ?_⟩
    · rw [column, if_pos rfl, outcome_insertAll_cons, hstep]
      rfl
    · rw [upTo_succ, column, if_pos rfl]
      exact h₁.takes
    · rw [h₁.charge]
      simp
    · obtain ⟨i, hi, -⟩ := h₁.basic k hk hdummy hb
      simp at hi
  · have hne : width b ≠ width 0 := fun heq =>
      absurd (width_inj (by omega) (by norm_num) heq) (by omega)
    obtain ⟨handle', s₂, hstep', h₂⟩ := h₁.step_share hpos hb hmax hroom
    refine ⟨s₂, ?_, h₂⟩
    rw [column, if_neg hne, outcome_insertAll_cons, hstep]
    dsimp only
    rw [outcome_insertAll_cons, hstep']
    rfl

end Spread

/-- The constraints on the first columns are taken in, as long as another column comes after these
and there are symbols enough. -/
theorem exists_spread (hepsilon : config.epsilon = 0) (hmax : c.count ≤ 2 ^ 26) (hb : b < c.count)
    (hroom : c.symbolIndex b ≤ 2 ^ 27) :
    ∃ s, (insertAll (c.upTo b)).outcome (opened config) = (.ok (), s) ∧
      c.Spread config (c.upTo b) b b s := by
  induction b with
  | zero => exact Spread.exists_edges hepsilon (by omega) hmax
  | succ b ih =>
    obtain ⟨s, hfilled, h⟩ := ih (by omega) (by unfold symbolIndex at hroom ⊢; omega)
    obtain ⟨s', hfilled', h'⟩ := h.exists_succ hepsilon hb hmax hroom
    refine ⟨s', ?_, h'⟩
    rw [upTo_succ, outcome_insertAll_append, hfilled]
    exact hfilled'

/-! ## Closing the batch -/

namespace Spread

/-- The errors are the spokes of a star. -/
theorem star (h : c.Spread config (c.upTo b) b b s) (hb : 0 < b)
    (hroom : c.symbolIndex b ≤ 2 ^ 27) :
    Star s.state.Equations s.state.charge (Ico 1 b) c.spokes 100 := by
  have hindices := Key.maxIndex_add_one
  refine ⟨⟨by simp, fun i => ⟨rfl, rfl, rfl⟩, fun i hi j hj heq => ?_, fun i j heq => ?_,
    fun i j heq => ?_⟩, fun v hv i hi => ?_, fun v => ?_, by norm_num⟩
  · have hi' : i < b := by simp at hi; omega
    have hj' : j < b := by simp at hj; omega
    unfold symbolIndex at hroom
    have hindex : c.symbolIndex i = c.symbolIndex j :=
      Key.ofIndex_inj (by unfold symbolIndex; omega) (by unfold symbolIndex; omega) heq
    unfold symbolIndex at hindex
    omega
  · cases congrArg Key.kind heq
  · cases congrArg Key.kind heq
  · rw [h.minus v hv i hi, h.slack v hv i (Finset.mem_Ico.mp hi).2, h.slack v hv 0 hb]
    ring
  · rw [h.charge]

/-- When the constraints have been taken in, the spokes are at the start of the optimisation: no
error has left the basis. -/
theorem spokes_at (h : c.Spread config (c.upTo b) b b s) (hroom : c.symbolIndex b ≤ 2 ^ 27) :
    c.spokes.At (Ico 1 b) ∅ 0 s.state.tableau := by
  have hindices := Key.maxIndex_add_one
  refine ⟨Finset.empty_subset _, .inr ⟨rfl, rfl⟩, fun i hi => Bool.eq_false_iff.mpr fun hb => ?_,
    fun i hi => absurd hi (Finset.notMem_empty i), fun i _ _ => h.isBasic_slack i,
    h.isBasic_slack 0, fun k hk hdummy hb => .inr (h.basic k hk hdummy hb)⟩
  obtain ⟨j, hj, heq⟩ := h.basic _ rfl rfl hb
  have hi := Finset.mem_Ico.mp hi
  have hj := Finset.mem_Ico.mp hj
  unfold symbolIndex at hroom
  have hindex : c.symbolIndex i + 1 = c.symbolIndex j + 2 :=
    Key.ofIndex_inj (by unfold symbolIndex; omega) (by unfold symbolIndex; omega) heq
  unfold symbolIndex at hindex
  omega

/-- A batch of the constraints on the first columns can be closed, if the limit allows a pivot for
each error. -/
theorem ensures_solve (h : c.Spread config (c.upTo b) b b s) (hb : 0 < b)
    (hroom : c.symbolIndex b ≤ 2 ^ 27) (hlimit : b ≤ config.maxIterations) (n : Nat)
    (journal : Option (Journal Rat)) (hn : s.state.tableau.nextId ≤ n) :
    Ensures Tableau.solve { s.state.tableau with nextId := n, journal := journal }
      (fun _ _ => True) fun _ _ => False := by
  have hsound := h.takes.working.sound.state.tableau
  have hat := h.spokes_at hroom
  refine (h.star hb hroom).ensures_solve
    ⟨hat.subset, hat.last, hat.plus, hat.minus, hat.slack, hat.free, hat.basic⟩
    (hsound.prepared.of_eq rfl rfl (.inl rfl) hn rfl rfl) (hsound.feasible trivial) ?_
  have hmax : s.state.tableau.maxIterations = config.maxIterations :=
    h.takes.working.rest.tableau.maxIterations
  rw [Nat.card_Ico]
  show b - 1 ≤ s.state.tableau.maxIterations
  omega

end Spread

/-- In exact arithmetic, whatever the measures: if the limit allows as many pivots as there are
columns before the last one, the symbols are what `2 ^ 25 + 1` columns fail for. -/
theorem solve_exhausted (hepsilon : config.epsilon = 0) (hcount : c.count = 2 ^ 25 + 1)
    (hlimit : 2 ^ 25 ≤ config.maxIterations) :
    ∃ i, c.solve config = .error (.indexSpaceExhausted i) := by
  have hindex : c.symbolIndex (2 ^ 25) = 2 ^ 27 := by
    rw [symbolIndex, hcount]
    norm_num
  have hroom := hindex.le
  obtain ⟨s, hfilled, h⟩ := exists_spread hepsilon (by omega) (by omega) hroom
  have hnext : s.state.tableau.nextId = 2 ^ 27 := by
    rw [h.nextId_eq, symbolCount_eq (by omega) (by norm_num), hindex]
  obtain ⟨cause, s', i, hstep, htold⟩ := h.takes.working.told_of_issue
    (c := c.bound (2 ^ 25)) (w := .required) h.batch_ne_none (by
      rw [hnext, symbols_bound, Key.maxIndex_add_one]
      exact Nat.lt_succ_self _)
    (h.ensures_solve (by norm_num) hroom hlimit)
  have hne : width (2 ^ 25) ≠ width 0 := fun heq =>
    absurd (width_inj (by norm_num) (by norm_num) heq) (by norm_num)
  refine ⟨i, solve_of_told_error ?_⟩
  -- The bound that finds no symbol is the next one in the list
  rw [requirements_eq (by omega), hcount, upTo_succ, outcome_insertAll_append, hfilled]
  dsimp only
  rw [column, if_neg hne, outcome_insertAll_cons, hstep]
  exact htold

/-- One column too many for the symbols, and far too many for the room that there is. The solver may
make enough pivots, and the symbols are what it tells of. -/
theorem solve_exhausted_crowded :
    let c : Columns Rat := ⟨2 ^ 25 + 1, 80, 1, 10, none⟩
    1 ≤ c.count ∧ c.count ≤ 2 ^ 26 ∧ c.drag = none ∧
      ¬ c.count * c.least + (c.count - 1) * c.gap ≤ c.total ∧
      ∃ i, c.solve ⟨0, true, 2 ^ 25⟩ = .error (.indexSpaceExhausted i) :=
  ⟨by norm_num, by norm_num, rfl, by norm_num, solve_exhausted rfl rfl le_rfl⟩

end Columns

end Cassowary
