import Cassowary.Proofs.Aftermath
import Cassowary.Proofs.Fitting
import Cassowary.Proofs.Presence
import Cassowary.Proofs.Transactions

/-!
# A width that is split

The columns are arranged in one batch. Whether the required constraints can be met is a matter of
room, and whether there are symbols enough is a matter of the number of columns: all columns but the
first need four. So this is all that the answer depends on, but for the limit on pivots. If the
columns are arranged, equal widths cost nothing, and so the widths are equal.

## Main definitions

* `Columns.opened` — the solver that the requirements are inserted into
* `Columns.Arranged` — the solver that they have all been inserted into

## Main results

* `Columns.solve_cases` — what an arrangement comes to
* `Columns.Fits.width_eq` — widths that cost nothing are equal
* `Columns.solve_split` — the answer to an arrangement that is not dragged
-/

namespace Cassowary

open Finset (range)
open Attempt

namespace Columns

open Solver (told symbolCount symbolCount_append symbolCount_le_of_prefix)

variable {c : Columns Rat} {config : Config Rat} {s s' : Solver Rat} {v : Assignment Rat}
  {b i : Nat} {cause : SolverError}

/-! ## How many symbols are needed -/

/-- Required equalities come before everything else. -/
theorem pairwise_upTo : ((c.upTo b).map fun e => e.1.shape e.2).Pairwise
    fun a a' => a'.fixed = true → a.fixed = true := by
  rw [List.pairwise_map, upTo, List.pairwise_append]
  refine ⟨List.pairwise_of_forall_mem_list fun e he _ _ _ => fixed_of_mem_edges he,
    List.pairwise_of_forall_mem_list fun e _ e' he' hfixed => ?_,
    fun e he _ _ _ => fixed_of_mem_edges he⟩
  obtain ⟨i, -, he'⟩ := List.mem_flatMap.mp he'
  cases (fixed_of_mem_column he').symm.trans hfixed

theorem symbols_bound : ((c.bound i).shape .required).symbols = 1 :=
  if_pos Strength.isRequired_required

theorem symbolCount_bound : symbolCount [(c.bound i, .required)] = 1 :=
  (Nat.add_zero _).trans symbols_bound

/-- The ends and the chain need a dummy each, the bounds a slack, and the other constraints two
errors. -/
theorem symbolCount_upTo (hn : c.count ≠ 0) (hb : b < 2 ^ 26) :
    symbolCount (c.upTo (b + 1)) = c.count + 2 + 3 * b := by
  have hshare : ∀ i, ((share i).shape .medium).symbols = 2 := fun i => if_neg (by
    rw [Constraint.shape, Strength.isRequired_medium]
    exact Bool.false_ne_true)
  induction b with
  | zero =>
    have hone : (c.ends ++ c.chain).map (Shape.symbols ∘ fun e => e.1.shape e.2) =
        (c.ends ++ c.chain).map fun _ => 1 := List.map_congr_left fun e he =>
      if_pos (Bool.and_eq_true_iff.mp (fixed_of_mem_edges he)).1
    have hlength : c.ends.length + c.chain.length = c.count + 1 := by
      simp only [ends, chain, List.length_cons, List.length_nil,
        List.length_map, List.length_range]
      omega
    rw [upTo_succ, symbolCount_append, upTo, List.range_zero, List.flatMap_nil, List.append_nil,
      symbolCount, List.map_map, hone]
    simp [symbolCount, column, symbols_bound, hlength]
  | succ b ih =>
    have hne : width (b + 1) ≠ width 0 := fun heq =>
      absurd (width_inj hb (by norm_num) heq) (Nat.succ_ne_zero b)
    rw [upTo_succ, symbolCount_append, ih (by omega), column, if_neg hne]
    simp only [symbolCount, List.map_cons, List.map_nil, List.sum_cons, List.sum_nil, symbols_bound,
      hshare]
    ring

/-! ## The batch -/

/-- The solver that the requirements are inserted into. -/
def opened (config : Config Rat) : Solver Rat := ((Solver.ofConfig config).step .openBatch).2

theorem opened_eq (config : Config Rat) :
    (Solver.ofConfig config).step .openBatch = (.ok .done, opened config) ∧
      (opened config).state = .empty config ∧ (opened config).batch ≠ none := by
  have hstep := Solver.step_openBatch_of_closed (s := Solver.ofConfig config) rfl
  refine ⟨Prod.ext (congrArg Prod.fst hstep) rfl, ?_, ?_⟩
  · rw [opened, hstep]
    rfl
  · rw [opened, hstep]
    exact Option.some_ne_none _

theorem working_opened (hepsilon : config.epsilon = 0) : (opened config).Working config :=
  ((Solver.working_ofConfig hepsilon).step_openBatch rfl).2.1.right

/-- What is told of the requirements is the answer to the arrangement, if it is an error. -/
theorem solve_of_told_error
    (h : told ((insertAll c.requirements).outcome (opened config)) = .error cause) :
    c.solve config = .error cause := by
  rw [solve_eq, (opened_eq config).1]
  dsimp only
  rw [h]
  rfl

/-- If all is well the columns are arranged, and perhaps dragged. -/
theorem solve_of_told_ok (hfilled : (insertAll c.requirements).outcome (opened config) = (.ok (), s))
    (htold : told (.ok (), s) = .ok ()) :
    c.solve config = match c.drag with
      | none => .ok (s.step .closeBatch).2
      | some target => dragged (s.step .closeBatch).2 target := by
  rw [solve_eq, (opened_eq config).1]
  dsimp only
  rw [hfilled, htold]
  cases c.drag <;> rfl

theorem reduced_of_mem_upTo {e : Constraint Rat × Strength Rat} (he : e ∈ c.upTo b) :
    (Operation.insert e.1 e.2).Reduced := by
  have hformulas : ∃ a comparison b, e.1 = .ofFormulas a comparison b := by
    rcases mem_upTo.mp he with rfl | rfl | ⟨i, -, rfl⟩ | ⟨i, -, rfl⟩ | ⟨i, -, -, rfl⟩ <;>
      dsimp only <;> exact ⟨_, _, _, rfl⟩
  obtain ⟨a, comparison, b, heq⟩ := hformulas
  exact ⟨a.linear, comparison, b.linear, heq⟩

/-- The books of the solver agree with each other when the batch is closed. -/
theorem orderly_closed (hn : c.count ≠ 0) (hs : (opened config).Takes config c.requirements s) :
    (s.step .closeBatch).2.Orderly config := by
  have hrun : (s.step .closeBatch).2 =
      (Solver.ofConfig config).run (Operation.batched (Operation.insertAll c.requirements)) := by
    rw [Solver.run_batched, hs.run]
    rfl
  rw [hrun]
  refine (Solver.orderly_ofConfig config).run fun o ho => ?_
  simp only [Operation.batched, Operation.insertAll, List.mem_cons, List.mem_append, List.mem_map,
    List.not_mem_nil, or_false] at ho
  rcases ho with rfl | ⟨e, he, rfl⟩ | rfl
  · trivial
  · exact reduced_of_mem_upTo (requirements_eq hn ▸ he)
  · trivial

/-- A solver that the columns are arranged in. -/
structure Arranged (c : Columns Rat) (config : Config Rat) (s : Solver Rat) : Prop where
  working : s.Working config
  orderly : s.Orderly config
  batch : s.batch = none
  held : s.state.held = c.requirements
  edits : s.state.edits = ∅
  nextId : s.state.tableau.nextId = symbolCount c.requirements

theorem arranged_closed (hn : c.count ≠ 0) (htakes : (opened config).Takes config c.requirements s)
    (hpeers : Solver.Peers config s (s.step .closeBatch).2)
    (hclosed : (s.step .closeBatch).2.batch = none) : c.Arranged config (s.step .closeBatch).2 := by
  obtain ⟨-, hstate, -⟩ := opened_eq config
  refine ⟨hpeers.right, orderly_closed hn htakes, hclosed, ?_, ?_, ?_⟩
  · rw [hpeers.alike.held_eq, htakes.held, hstate]
    rfl
  · rw [hpeers.alike.edits, htakes.edits, hstate]
    rfl
  · rw [hpeers.alike.nextId, htakes.nextId, hstate]
    exact Nat.zero_add _

theorem symbolCount_requirements (hn : c.count ≠ 0) (hmax : c.count ≤ 2 ^ 26) :
    symbolCount c.requirements + 1 = 4 * c.count := by
  obtain ⟨m, hm⟩ := Nat.exists_eq_add_one_of_ne_zero hn
  have hcount : symbolCount c.requirements = c.count + 2 + 3 * m := by
    rw [requirements_eq hn, ← symbolCount_upTo hn (by omega), ← hm]
  omega

/-- If there are too many columns, a part of the requirements that the symbols suffice for ends
before the last column. -/
theorem prefix_upTo_of_many {before : List (Constraint Rat × Strength Rat)}
    {e : Constraint Rat × Strength Rat} {m : Nat} (hm : c.count = m + 1) (hmax : c.count ≤ 2 ^ 26)
    (hmany : 2 ^ 25 < c.count) (hinitial : before ++ [e] <+: c.requirements)
    (hroom : symbolCount (before ++ [e]) ≤ 2 ^ 27) : before ++ [e] <+: c.upTo m := by
  have hn : c.count ≠ 0 := by omega
  have hne : width m ≠ width 0 := fun heq =>
    absurd (width_inj (by omega) (by norm_num) heq) (by omega)
  have hlast : c.requirements = c.upTo m ++ [(c.bound m, .required)] ++ [(share m, .medium)] := by
    rw [requirements_eq hn, hm, upTo_succ, column, if_neg hne]
    simp
  have hbound : symbolCount (c.upTo m ++ [(c.bound m, .required)]) = 4 * m + 1 := by
    obtain ⟨d, rfl⟩ : ∃ d, m = d + 1 := ⟨m - 1, by omega⟩
    rw [symbolCount_append, symbolCount_upTo hn (by omega), symbolCount_bound]
    omega
  have hshort : before ++ [e] <+: c.upTo m ++ [(c.bound m, .required)] :=
    (List.prefix_or_prefix_of_prefix hinitial (hlast ▸ List.prefix_append _ _)).resolve_right
      fun h => by
        have hle := symbolCount_le_of_prefix h
        omega
  refine (List.prefix_concat_iff.mp hshort).resolve_left fun heq => ?_
  rw [heq] at hroom
  omega

/-- If a part of the requirements that the symbols suffice for cannot be met, there are not too many
columns, and there is no room for them. -/
theorem no_room_of_not_exists {before : List (Constraint Rat × Strength Rat)}
    {e : Constraint Rat × Strength Rat} (hn : c.count ≠ 0) (hmax : c.count ≤ 2 ^ 26)
    (hinitial : before ++ [e] <+: c.requirements) (hroom : symbolCount (before ++ [e]) ≤ 2 ^ 27)
    (hnot : ¬ ∃ v : Assignment Rat, ∀ e' ∈ before ++ [e], e'.2.isRequired = true → e'.1.Holds v) :
    c.count ≤ 2 ^ 25 ∧ ¬ c.count * c.least + (c.count - 1) * c.gap ≤ c.total := by
  obtain ⟨m, hm⟩ := Nat.exists_eq_add_one_of_ne_zero hn
  -- Constraints that can be met hold at some assignment, and so do those before one of them
  have hmet : ∀ b, before ++ [e] <+: c.upTo b → ¬ ∃ v, c.Fits b v := fun b hb ⟨v, hv⟩ =>
    hnot ⟨v, fun e' he' => holds_upTo_iff.mpr hv e' (hb.subset he')⟩
  refine ⟨not_lt.mp fun hmany => ?_, fun hfit => ?_⟩
  · exact hmet m (prefix_upTo_of_many hm hmax hmany hinitial hroom)
      (exists_fits_of_lt hmax (by omega))
  · exact hmet c.count (requirements_eq hn ▸ hinitial) ((exists_fits_iff hn hmax).mpr hfit)

/-- The columns are arranged, and perhaps dragged after that, or the limit on pivots was hit, or
there are too many columns, or there is no room for them. -/
theorem solve_cases (hepsilon : config.epsilon = 0) (hn : c.count ≠ 0)
    (hmax : c.count ≤ 2 ^ 26) :
    (∃ s, c.Arranged config s ∧
      c.solve config = (match c.drag with
        | none => .ok s
        | some target => dragged s target) ∧
      c.count ≤ 2 ^ 25 ∧ c.count * c.least + (c.count - 1) * c.gap ≤ c.total) ∨
    (∃ n, c.solve config = .error (.iterationLimit n)) ∨
    (2 ^ 25 < c.count ∧ ∃ i, c.solve config = .error (.indexSpaceExhausted i)) ∨
    c.count ≤ 2 ^ 25 ∧ ¬ c.count * c.least + (c.count - 1) * c.gap ≤ c.total ∧
      c.solve config = .error .unsatisfiable := by
  obtain ⟨-, hstate, hopen⟩ := opened_eq config
  have hid : (opened config).state.tableau.nextId = 0 := by rw [hstate]; rfl
  have hheld : (opened config).state.held = [] := by rw [hstate]; rfl
  have hshapes : (opened config).state.shapes = [] := by rw [hstate]; rfl
  have hindices : Key.maxIndex + 1 = 2 ^ 27 := by decide
  have hcount := symbolCount_requirements hn hmax
  have hlawful : ∀ e ∈ c.requirements, e.1.OverLayout ∧ 0 ≤ e.2.value := fun e he =>
    overLayout_of_mem_upTo (requirements_eq hn ▸ he)
  rcases (working_opened hepsilon).told_insertAll hopen hlawful
    (by rw [hshapes, List.nil_append, requirements_eq hn]; exact pairwise_upTo) with
    ⟨s, hfilled, htakes, htold, hpeers, hclosed⟩ | ⟨n, hlimit⟩ | ⟨before, e, hinitial, hwhy⟩
  · have hroom := htakes.room (by rw [hid]; exact Nat.zero_le _)
    rw [htakes.nextId, hid, hindices] at hroom
    obtain ⟨v, hv⟩ := htakes.exists_holds
    rw [requirements_eq hn, holds_upTo_iff] at hv
    exact .inl ⟨_, arranged_closed hn htakes hpeers hclosed, solve_of_told_ok hfilled htold, by omega,
      (exists_fits_iff hn hmax).mp ⟨v, hv⟩⟩
  · exact .inr (.inl ⟨n, solve_of_told_error hlimit⟩)
  · rw [hid, hheld, hindices, Nat.zero_add, List.nil_append] at hwhy
    rcases hwhy with ⟨⟨i, hindex⟩, hroom⟩ | ⟨hunsat, hroom, hnot⟩
    · have hle := symbolCount_le_of_prefix hinitial
      exact .inr (.inr (.inl ⟨by omega, i, solve_of_told_error hindex⟩))
    · obtain ⟨hfew, htight⟩ := no_room_of_not_exists hn hmax hinitial hroom hnot
      exact .inr (.inr (.inr ⟨hfew, htight, solve_of_told_error hunsat⟩))

/-! ## Equal widths -/

/-- Widths that cost nothing are equal. -/
theorem Fits.width_eq (h : c.Fits c.count v) (hn : c.count ≠ 0)
    (hcost : penalty c.requirements v ≤ 0) (hi : i < c.count) :
    v.width i = c.room / c.count := by
  have hequal : ∀ j ∈ range c.count, v.width j = v.width 0 := by
    have hnonneg : ∀ j ∈ range c.count, 0 ≤ 100 * |v.width j - v.width 0| := fun j _ => by positivity
    rw [requirements_eq hn, penalty_upTo] at hcost
    have hzero := (Finset.sum_eq_zero_iff_of_nonneg hnonneg).mp
      (le_antisymm hcost (Finset.sum_nonneg hnonneg))
    intro j hj
    have habs : |v.width j - v.width 0| = 0 := by linarith [hzero j hj]
    exact sub_eq_zero.mp (abs_eq_zero.mp habs)
  have hsum := h.sum_width hn
  rw [Finset.sum_congr rfl hequal, Finset.sum_const, Finset.card_range, nsmul_eq_mul] at hsum
  rw [hequal i (Finset.mem_range.mpr hi), eq_div_iff (Nat.cast_ne_zero.mpr hn), mul_comm, hsum]

/-- The left edges follow from equal widths. -/
theorem Fits.left_eq_of_equal {x : Rat} (h : c.Fits b v) (hequal : ∀ j < c.count, v.width j = x)
    (hi : i < c.count) : v.left i = i * (x + c.gap) := by
  rw [h.left_eq hi, Finset.sum_congr rfl fun j hj =>
    congrArg (· + c.gap) (hequal j ((Finset.mem_range.mp hj).trans hi)),
    Finset.sum_const, Finset.card_range, nsmul_eq_mul]

end Columns

/-! ## Readings -/

namespace Solver

variable {s : Solver Rat} {config : Config Rat} {x : Variable} {e : Constraint Rat × Strength Rat}

/-- A variable that a constraint depends on which is held has a value, and this is what is found for
it. -/
theorem Working.read_eq (hs : s.Working config) (hbalanced : s.state.Balanced)
    (hx : x.key.unrestricted = true) (he : e ∈ s.state.held) {v : Assignment Rat} {a : Rat}
    (hv : e.1.Holds v) (hnot : ¬ e.1.Holds (Function.update v x.key a)) :
    s.read x = .value (s.assignment x.key) := by
  have hmentioned : s.state.Mentioned x.key := by
    obtain ⟨⟨h, r⟩, hmem, rfl⟩ := List.mem_map.mp he
    have hr := Table.get?_eq_some_iff.mpr hmem
    refine ⟨h, r, hr, ?_⟩
    by_contra hkeys
    rw [← hs.sound.state.tidy.keys_current hr] at hkeys
    have hsame := Constraint.value_of_notMem hkeys v a
    refine hnot ?_
    unfold Constraint.Holds at hv ⊢
    rwa [hsame]
  rw [hs.sound.read_eq hbalanced hs.poisoned, if_pos hmentioned, assignment_eq hs.poisoned hx]

end Solver

namespace Columns

variable {c : Columns Rat} {config : Config Rat} {s : Solver Rat} {i j : Nat}

theorem left_key_inj (hi : i < 2 ^ 26) (hj : j < 2 ^ 26) (h : (left i).key = (left j).key) :
    i = j := by
  have hindex : BitVec.ofNat 27 (2 * i) = BitVec.ofNat 27 (2 * j) := congrArg Key.index h
  have hnat := congrArg BitVec.toNat hindex
  rw [BitVec.toNat_ofNat, BitVec.toNat_ofNat] at hnat
  omega

theorem left_key_ne_width (i j : Nat) : (left i).key ≠ (width j).key := by
  intro h
  have hindex : BitVec.ofNat 27 (2 * i) = BitVec.ofNat 27 (2 * j + 1) := congrArg Key.index h
  have hnat := congrArg BitVec.toNat hindex
  rw [BitVec.toNat_ofNat, BitVec.toNat_ofNat] at hnat
  omega

/-- The edges and widths of the columns have the values that are found for them. -/
theorem read_eq (hs : s.Working config) (hbalanced : s.state.Balanced)
    (hheld : ∀ e ∈ c.upTo c.count, e ∈ s.state.held) (hmax : c.count ≤ 2 ^ 26) (hi : i < c.count) :
    s.read (left i) = .value (s.assignment.left i) ∧
      s.read (width i) = .value (s.assignment.width i) := by
  constructor
  · cases i with
    | zero =>
      refine hs.read_eq hbalanced rfl (hheld (starts, .required) (mem_upTo.mpr (.inl rfl)))
        (v := fun _ => 0) (a := 1) (holds_starts.mpr rfl) ?_
      rw [holds_starts, Assignment.left, Function.update_self]
      exact one_ne_zero
    | succ i =>
      have hlay : (c.link i).Holds (c.lay fun _ => 0) := by
        rw [holds_link, left_lay (by omega), left_lay (by omega), width_lay (by omega),
          Finset.sum_range_succ]
        ring
      refine hs.read_eq hbalanced rfl (hheld (c.link i, .required) (mem_upTo.mpr
        (.inr (.inr (.inl ⟨i, hi, rfl⟩))))) (a := (c.lay fun _ => 0).left (i + 1) + 1) hlay ?_
      rw [holds_link] at hlay ⊢
      have hleft : (left i).key ≠ (left (i + 1)).key := fun h =>
        absurd (left_key_inj (by omega) (by omega) h) (by omega)
      unfold Assignment.left Assignment.width at hlay ⊢
      rw [Function.update_self, Function.update_of_ne hleft,
        Function.update_of_ne (left_key_ne_width _ _).symm]
      linarith
  · refine hs.read_eq hbalanced rfl (hheld (c.bound i, .required) (mem_upTo.mpr
      (.inr (.inr (.inr (.inl ⟨i, hi, rfl⟩))))))
      (v := fun _ => c.least) (a := c.least - 1) (holds_bound.mpr le_rfl) ?_
    rw [holds_bound, Assignment.width, Function.update_self]
    linarith

/-- In exact arithmetic, columns that are not dragged are arranged if the least widths and the gaps
have room in the total width: they are equally wide then, and side by side. If there is no room, the
requirements are refused. There can be too many columns for both. All this is so unless the limit on
pivots is hit. -/
theorem solve_split (hepsilon : config.epsilon = 0) (hn : 1 ≤ c.count) (hmax : c.count ≤ 2 ^ 26)
    (hdrag : c.drag = none) :
    (∃ k, c.solve config = .error (.iterationLimit k)) ∨
    if 2 ^ 25 < c.count then ∃ i, c.solve config = .error (.indexSpaceExhausted i)
    else if c.count * c.least + (c.count - 1) * c.gap ≤ c.total then
      ∃ s, c.solve config = .ok s ∧ ∀ i < c.count,
        let w := (c.total - (c.count - 1) * c.gap) / c.count
        s.read (width i) = .value w ∧ s.read (left i) = .value (i * (w + c.gap))
    else c.solve config = .error .unsatisfiable := by
  have hn : c.count ≠ 0 := Nat.one_le_iff_ne_zero.mp hn
  rcases solve_cases hepsilon hn hmax with
    ⟨s, hs, hsolve, hcount, hroom⟩ | hlimit | ⟨hmany, hindex⟩ | ⟨hcount, hroom, hunsat⟩
  · rw [hdrag] at hsolve
    refine .inr ?_
    rw [if_neg (not_lt.mpr hcount), if_pos hroom]
    refine ⟨s, hsolve, fun i hi => ?_⟩
    obtain ⟨hfeasible, hleast⟩ :=
      hs.working.sound.optimal trivial trivial hs.working.poisoned hs.batch
    have hfits : c.Fits c.count s.assignment := by
      rwa [← holds_upTo_iff, ← requirements_eq hn, ← hs.held]
    have hequal := fits_lay hn hmax le_rfl (sum_equal hn) fun _ _ => (least_le_equal_iff hn).mpr hroom
    have hcost : penalty c.requirements s.assignment ≤ 0 := by
      rw [← hs.held, ← State.cost_eq_penalty]
      refine (hleast (c.lay fun _ => c.room / c.count) ?_).trans_eq ?_
      · rwa [State.Feasible, hs.held, requirements_eq hn, holds_upTo_iff]
      · rw [State.cost_eq_penalty, hs.held, requirements_eq hn, penalty_upTo]
        refine Finset.sum_eq_zero fun i hi => ?_
        rw [width_lay ((Finset.mem_range.mp hi).trans_le hmax), width_lay (by norm_num)]
        simp
    have hwidth : ∀ i < c.count, s.assignment.width i = c.room / c.count :=
      fun i => hfits.width_eq hn hcost
    obtain ⟨hleft', hwidth'⟩ := read_eq hs.working hs.orderly.balanced.state
      (fun e he => by rwa [hs.held, requirements_eq hn]) hmax hi
    rw [hleft', hwidth', hwidth i hi, hfits.left_eq_of_equal hwidth hi]
    exact ⟨rfl, rfl⟩
  · exact .inl hlimit
  · rw [if_pos hmany]
    exact .inr hindex
  · rw [if_neg (not_lt.mpr hcount), if_neg hroom]
    exact .inr hunsat

/-- Three columns with room to spare, by a solver that is told to be exact. -/
theorem solve_split_three : ∃ s, (⟨3, 80, 1, 10, none⟩ : Columns Rat).solve ⟨0, true, 100⟩ = .ok s ∧
    ∀ i < 3, s.read (width i) = .value 26 ∧ s.read (left i) = .value (i * 27) := by
  have hsolved : ((⟨3, 80, 1, 10, none⟩ : Columns Rat).solve ⟨0, true, 100⟩).toBool = true := by
    decide +kernel
  rcases @solve_split ⟨3, 80, 1, 10, none⟩ ⟨0, true, 100⟩ rfl (by decide) (by decide) rfl with
    ⟨k, hlimit⟩ | hsplit
  · rw [hlimit] at hsolved
    cases hsolved
  · norm_num at hsplit
    exact hsplit

end Columns

end Cassowary
