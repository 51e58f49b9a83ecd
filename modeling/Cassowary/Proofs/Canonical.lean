import Cassowary.Proofs.Posting
import Cassowary.Proofs.Reduction

/-!
# The form of a reduced constraint

A comparison can be written in many ways, and reducing it brings it into one form. Each variable has
one term, whose coefficient is what all its terms on both sides come to. Terms that have cancelled
are left out. The others come in the order of their kinds, and within a kind in the order in which
the variables are first mentioned.

So the terms of a reduced constraint are determined by the coefficients of the two sides, and it
does not matter from which side a comparison is read. A constraint in this form is reduced already.

## Main definitions

* `LinearForm.coefficientFor` — what the terms of a key come to
* `Constraint.Canonical` — the form of a reduced constraint
* `Constraint.Agrees` — constraints that differ in the order of their terms only
* `Constraint.form` — the terms and the constant of a constraint as one side of a comparison

## Main results

* `Constraint.mem_ordered_gathered` — which terms a reduced constraint has
* `Constraint.pairwise_keys_reduce` — in which order they come
* `Constraint.Canonical.reduce_form` — a constraint in this form stays as it is
* `Constraint.reduce_canonical` — all of this about reduced constraints
-/

namespace Cassowary

/-- Where the terms of a kind come in a constraint. -/
def Kind.place : Kind → Nat
  | external => 0
  | localAux => 1
  | globalAux => 2
  | _ => 3

/-- The kinds of layout variables. -/
theorem Key.kind_of_unrestricted {k : Key} (hk : k.unrestricted = true) :
    k.kind = .external ∨ k.kind = .localAux ∨ k.kind = .globalAux := by
  revert hk
  unfold Key.unrestricted
  cases k.kind <;> simp [Kind.unrestricted]

/-! ## Coefficients -/

/-- What the terms of a key in a list come to. -/
def Constraint.together (terms : List (Term Variable Rat)) (k : Key) : Rat :=
  (terms.map fun t => if t.var.key = k then t.coefficient else 0).sum

/-- What the terms of a key come to. -/
def LinearForm.coefficientFor (e : LinearForm Rat) (k : Key) : Rat :=
  Constraint.together e.terms k

namespace Constraint

variable {a b : LinearForm Rat} {terms terms' : List (Term Variable Rat)} {sums : Table Key Rat}
  {t : Term Key Rat} {k : Key} {comparison : Comparison}

@[simp] theorem together_nil (k : Key) : together [] k = 0 := rfl

@[simp] theorem together_cons (t : Term Variable Rat) (terms : List (Term Variable Rat)) (k : Key) :
    together (t :: terms) k = (if t.var.key = k then t.coefficient else 0) + together terms k := by
  rw [together, List.map_cons, List.sum_cons, together]

@[simp] theorem together_append (terms terms' : List (Term Variable Rat)) (k : Key) :
    together (terms ++ terms') k = together terms k + together terms' k := by
  rw [together, List.map_append, List.sum_append, together, together]

@[simp] theorem together_scaled (terms : List (Term Variable Rat)) (factor : Rat) (k : Key) :
    together (terms.map (·.scaled factor)) k = together terms k * factor := by
  induction terms with
  | nil => simp
  | cons t terms ih =>
    have hfirst : (if (t.scaled factor).var.key = k then (t.scaled factor).coefficient else 0) =
        (if t.var.key = k then t.coefficient else 0) * factor := by
      show (if t.var.key = k then t.coefficient * factor else 0) = _
      split <;> ring
    rw [List.map_cons, together_cons, together_cons, ih, hfirst]
    ring

/-- The two sides of a comparison are taken together with opposite signs. -/
theorem together_gathered (a b : LinearForm Rat) (k : Key) :
    together (gathered a b) k = a.coefficientFor k - b.coefficientFor k := by
  have hneg : together (b.terms.map (-·)) k = together b.terms k * -1 := together_scaled _ _ _
  rw [gathered, together_append, hneg, LinearForm.coefficientFor, LinearForm.coefficientFor]
  ring

/-! ## Merged terms -/

theorem merged_concat (terms : List (Term Variable Rat)) (t : Term Variable Rat) :
    merged (terms ++ [t]) = if t.var.key.unrestricted then
      (merged terms).alter t.var.key fun sum => some (sum.getD 0 + t.coefficient)
    else merged terms := by
  unfold merged
  rw [List.filter_append, List.foldl_append]
  split
  · next h => rw [List.filter_cons_of_pos (by simpa using h)]; rfl
  · next h => rw [List.filter_cons_of_neg (by simpa using h)]; rfl

/-- The sum of a key is what its terms come to. -/
theorem getD_get?_merged (hk : k.unrestricted = true) :
    ((merged terms).get? k).getD 0 = together terms k := by
  induction terms using List.reverseRecOn with
  | nil => rfl
  | append_singleton terms t ih =>
    rw [merged_concat, together_append, together_cons, together_nil, add_zero, ← ih]
    by_cases ht : t.var.key = k
    · subst ht
      rw [if_pos hk, if_pos rfl, Table.get?_alter_self, Option.getD_some]
    · rw [if_neg ht, add_zero]
      split
      · rw [Table.get?_alter_of_ne _ _ (Ne.symm ht)]
      · rfl

/-- The keys are the layout variables that are mentioned. -/
theorem mem_keys_merged :
    k ∈ (merged terms).keys ↔ k.unrestricted = true ∧ k ∈ terms.map (·.var.key) := by
  induction terms using List.reverseRecOn with
  | nil =>
    refine iff_of_false (fun h => ?_) fun h => List.not_mem_nil h.2
    cases h
  | append_singleton terms t ih =>
    have hmentioned : k ∈ (terms ++ [t]).map (·.var.key) ↔
        k ∈ terms.map (·.var.key) ∨ k = t.var.key := by
      rw [List.map_append, List.mem_append, List.map_singleton, List.mem_singleton]
    rw [hmentioned, and_or_left, ← ih, merged_concat]
    split
    · next hfree =>
      rw [Table.keys_alter_some rfl]
      split <;> grind
    · next hfree =>
      refine (or_iff_left ?_).symm
      rintro ⟨hk, rfl⟩
      exact hfree hk

/-- Keys come in the order in which they are first mentioned. -/
theorem pairwise_keys_merged (terms : List (Term Variable Rat)) : (merged terms).keys.Pairwise
    fun k k' => (terms.map (·.var.key)).idxOf k < (terms.map (·.var.key)).idxOf k' := by
  induction terms using List.reverseRecOn with
  | nil => exact List.Pairwise.nil
  | append_singleton terms t ih =>
    have hkept : ∀ k ∈ (merged terms).keys, ((terms ++ [t]).map (·.var.key)).idxOf k =
        (terms.map (·.var.key)).idxOf k := fun k hk => by
      rw [List.map_append, List.idxOf_append_of_mem (mem_keys_merged.mp hk).2]
    have hbefore : (merged terms).keys.Pairwise fun k k' =>
        ((terms ++ [t]).map (·.var.key)).idxOf k < ((terms ++ [t]).map (·.var.key)).idxOf k' :=
      ih.imp_of_mem fun hk hk' hlt => by rwa [hkept _ hk, hkept _ hk']
    rw [merged_concat]
    split
    · next hfree =>
      rw [Table.keys_alter_some rfl]
      split
      · exact hbefore
      · next hnew =>
        have hunmentioned : t.var.key ∉ terms.map (·.var.key) := fun hmem =>
          hnew (mem_keys_merged.mpr ⟨hfree, hmem⟩)
        refine List.pairwise_append.mpr ⟨hbefore, List.pairwise_singleton _ _, fun k hk k' hk' => ?_⟩
        rw [List.mem_singleton.mp hk', hkept k hk, List.map_append,
          List.idxOf_append_of_notMem hunmentioned]
        exact Nat.lt_add_right _ (List.idxOf_lt_length_of_mem (mem_keys_merged.mp hk).2)
    · exact hbefore

/-! ## Terms in their order -/

/-- The terms of a constraint are those of the sums that have not cancelled. -/
theorem mem_ordered (hlayout : ∀ k ∈ sums.keys, k.unrestricted = true) :
    t ∈ ordered sums ↔ sums.get? t.var = some t.coefficient ∧ zeroTerm < |t.coefficient| := by
  rw [Table.get?_eq_some_iff]
  constructor
  · intro ht
    obtain ⟨kind, -, ht⟩ := List.mem_flatMap.mp ht
    obtain ⟨e, he, rfl⟩ := List.mem_map.mp ht
    obtain ⟨hmem, hkeep⟩ := List.mem_filter.mp he
    have hsize := (of_decide_eq_true hkeep).2
    rw [Scalar.magnitude_rat] at hsize
    exact ⟨hmem, hsize⟩
  · rintro ⟨hmem, hsize⟩
    have hkind := Key.kind_of_unrestricted (hlayout t.var (List.mem_map.mpr ⟨_, hmem, rfl⟩))
    refine List.mem_flatMap.mpr ⟨t.var.kind, by simpa using hkind, List.mem_map.mpr
      ⟨(t.var, t.coefficient), List.mem_filter.mpr ⟨hmem, decide_eq_true ⟨rfl, ?_⟩⟩, rfl⟩⟩
    rwa [Scalar.magnitude_rat]

/-- Which terms there are is settled by the coefficients of the two sides. -/
theorem mem_ordered_gathered : t ∈ ordered (merged (gathered a b)) ↔
    t.var.unrestricted = true ∧ t.coefficient = a.coefficientFor t.var - b.coefficientFor t.var ∧
      zeroTerm < |t.coefficient| := by
  rw [mem_ordered fun k hk => (mem_keys_merged.mp hk).1]
  constructor
  · rintro ⟨hsum, hsize⟩
    have hfree := unrestricted_of_get?_merged hsum
    have hvalue := @getD_get?_merged (gathered a b) t.var hfree
    rw [hsum, Option.getD_some, together_gathered] at hvalue
    exact ⟨hfree, hvalue, hsize⟩
  · rintro ⟨hfree, hvalue, hsize⟩
    have hsum := @getD_get?_merged (gathered a b) t.var hfree
    rw [together_gathered, ← hvalue] at hsum
    refine ⟨?_, hsize⟩
    cases hget : (merged (gathered a b)).get? t.var with
    | some x =>
      rw [hget, Option.getD_some] at hsum
      rw [hsum]
    | none =>
      rw [hget, Option.getD_none] at hsum
      rw [← hsum, abs_zero] at hsize
      norm_num [zeroTerm] at hsize

/-- Terms come in the order of their kinds, and those of a kind in the order of the sums. -/
theorem pairwise_ordered {before : Key → Key → Prop} (hsums : sums.keys.Pairwise before) :
    ((ordered sums).map (·.var)).Pairwise fun k k' =>
      k.kind.place < k'.kind.place ∨ k.kind = k'.kind ∧ before k k' := by
  have hkind : ∀ {kind : Kind} {k : Key}, k ∈ ((sums.entries.filter fun e => e.1.kind = kind ∧
      zeroTerm < Scalar.magnitude e.2).map fun e => (⟨e.1, e.2⟩ : Term Key Rat)).map (·.var) →
      k.kind = kind := by
    intro kind k hk
    rw [List.map_map] at hk
    obtain ⟨e, he, rfl⟩ := List.mem_map.mp hk
    exact (of_decide_eq_true (List.mem_filter.mp he).2).1
  rw [ordered, List.map_flatMap, List.pairwise_flatMap]
  constructor
  · intro kind _
    have hpart : (((sums.entries.filter fun e => e.1.kind = kind ∧
        zeroTerm < Scalar.magnitude e.2).map fun e =>
          (⟨e.1, e.2⟩ : Term Key Rat)).map (·.var)).Pairwise before := by
      rw [List.map_map]
      exact hsums.sublist (List.filter_sublist.map _)
    exact hpart.imp_of_mem fun hk hk' hbefore => .inr ⟨(hkind hk).trans (hkind hk').symm, hbefore⟩
  · have hplaces : [Kind.external, .localAux, .globalAux].Pairwise (·.place < ·.place) := by decide
    refine hplaces.imp fun hlt k hk k' hk' => .inl ?_
    rwa [hkind hk, hkind hk']

/-- To sort what is in the order of its kinds by its kinds changes nothing. -/
theorem flatMap_filter_kind {l : List (Key × Rat)} (hlayout : ∀ e ∈ l, e.1.unrestricted = true)
    (hsorted : (l.map Prod.fst).Pairwise (·.kind.place ≤ ·.kind.place)) :
    [Kind.external, .localAux, .globalAux].flatMap (fun kind => l.filter (·.1.kind = kind)) = l := by
  simp only [List.flatMap_cons, List.flatMap_nil, List.append_nil]
  induction l with
  | nil => rfl
  | cons e rest ih =>
    obtain ⟨hfree, hlayout⟩ := List.forall_mem_cons.mp hlayout
    obtain ⟨hfirst, hsorted⟩ := List.pairwise_cons.mp hsorted
    have ih := ih hlayout hsorted
    -- No kind that comes before that of the first entry occurs after it
    have hempty : ∀ kind : Kind, kind.place < e.1.kind.place →
        rest.filter (fun e => decide (e.1.kind = kind)) = [] := by
      intro kind hbefore
      apply List.filter_eq_nil_iff.mpr
      intro e' he' hkind
      have hplace := hfirst e'.1 (List.mem_map_of_mem he')
      rw [of_decide_eq_true hkind] at hplace
      omega
    rcases Key.kind_of_unrestricted hfree with hkind | hkind | hkind
    · simp [hkind, ih]
    · have hexternal := hempty .external (by rw [hkind]; decide)
      rw [hexternal, List.nil_append] at ih
      simp only [List.filter_cons, hkind, hexternal, reduceCtorEq, decide_false, decide_true,
        Bool.false_eq_true, if_false, if_true, List.nil_append, List.cons_append, ih]
    · have hexternal := hempty .external (by rw [hkind]; decide)
      have hlocal := hempty .localAux (by rw [hkind]; decide)
      rw [hexternal, hlocal, List.nil_append, List.nil_append] at ih
      simp only [List.filter_cons, hkind, hexternal, hlocal, reduceCtorEq, decide_false, decide_true,
        Bool.false_eq_true, if_false, if_true, List.nil_append, ih]

/-- Sums in the order of their kinds, none of which has cancelled, become the terms as they are. -/
theorem ordered_eq_map (hlayout : ∀ e ∈ sums.entries, e.1.unrestricted = true)
    (hsorted : sums.keys.Pairwise (·.kind.place ≤ ·.kind.place))
    (hlarge : ∀ e ∈ sums.entries, zeroTerm < |e.2|) :
    ordered sums = sums.entries.map fun e => ⟨e.1, e.2⟩ := by
  have hkept : ∀ kind : Kind, (sums.entries.filter fun e => e.1.kind = kind ∧
      zeroTerm < Scalar.magnitude e.2) = sums.entries.filter (·.1.kind = kind) := by
    intro kind
    apply List.filter_congr
    intro e he
    simp [Scalar.magnitude_rat, hlarge e he]
  rw [ordered, ← List.map_flatMap]
  simp only [hkept, flatMap_filter_kind hlayout hsorted]

/-! ## Margins -/

theorem weight_eq (terms : List (Term Key Rat)) :
    weight terms = (terms.map fun t => |t.coefficient|).sum := by
  have hfold : ∀ (l : List (Term Key Rat)) (a : Rat),
      l.foldl (fun sum t => sum + Scalar.magnitude t.coefficient) a =
        a + (l.map fun t => |t.coefficient|).sum := by
    intro l
    induction l with
    | nil => simp
    | cons t l ih =>
      intro a
      rw [List.foldl_cons, ih, List.map_cons, List.sum_cons, Scalar.magnitude_rat, add_assoc]
  rw [weight, hfold, zero_add]

/-- A margin grows with the coefficients, and there is always some. -/
theorem margin_eq (terms : List (Term Key Rat)) : margin terms =
    max 1e-7 (1e-8 * max 1 (terms.map fun t => |t.coefficient|).sum) := by
  rw [margin, Scalar.atLeast_rat, Scalar.atLeast_rat, weight_eq]
  rfl

/-! ## The form of a reduced constraint -/

/-- Each variable has one term, which has not cancelled, and the terms come in the order of their
kinds. -/
structure Canonical (c : Constraint Rat) : Prop where
  overLayout : c.OverLayout
  nodup : c.keys.Nodup
  sorted : c.keys.Pairwise (·.kind.place ≤ ·.kind.place)
  large : ∀ t ∈ c.terms, zeroTerm < |t.coefficient|

/-- The constraints say the same in the same terms, which may come in another order. -/
structure Agrees (c c' : Constraint Rat) : Prop where
  relation : c.relation = c'.relation
  constant : c.constant = c'.constant
  terms : c.terms.Perm c'.terms

/-- The terms of a reduced constraint are those of the merged sides, all with the same sign. -/
theorem exists_terms_reduce (a b : LinearForm Rat) (comparison : Comparison) :
    ∃ sign : Rat, |sign| = 1 ∧ (reduce a comparison b).terms =
      (ordered (merged (gathered a b))).map (·.scaled sign) := by
  have hone : (ordered (merged (gathered a b))).map (·.scaled 1) =
      ordered (merged (gathered a b)) := by
    refine (List.map_congr_left fun t _ => ?_).trans (List.map_id _)
    show (⟨t.var, t.coefficient * 1⟩ : Term Key Rat) = t
    rw [mul_one]
  cases comparison
  case equal => exact ⟨1, abs_one, hone.symm⟩
  case less => exact ⟨1, abs_one, hone.symm⟩
  case lessOrEqual => exact ⟨1, abs_one, hone.symm⟩
  case greater => exact ⟨-1, by simp, rfl⟩
  case greaterOrEqual => exact ⟨-1, by simp, rfl⟩

theorem keys_reduce (a b : LinearForm Rat) (comparison : Comparison) :
    (reduce a comparison b).keys = (ordered (merged (gathered a b))).map (·.var) := by
  obtain ⟨sign, -, hterms⟩ := exists_terms_reduce a b comparison
  rw [keys, hterms, List.map_map]
  rfl

/-- The variables of two sides as they are written, from left to right. -/
def mentions (a b : LinearForm Rat) : List Key := (a.terms ++ b.terms).map (·.var.key)

/-- Terms come in the order of their kinds, and those of a kind in the order in which their
variables are first mentioned. -/
theorem pairwise_keys_reduce (a b : LinearForm Rat) (comparison : Comparison) :
    (reduce a comparison b).keys.Pairwise fun k k' => k.kind.place < k'.kind.place ∨
      k.kind = k'.kind ∧ (mentions a b).idxOf k < (mentions a b).idxOf k' := by
  have hmentions : (gathered a b).map (·.var.key) = mentions a b := by
    rw [gathered, mentions, List.map_append, List.map_append, List.map_map]
    rfl
  rw [keys_reduce, ← hmentions]
  exact pairwise_ordered (pairwise_keys_merged _)

theorem canonical_reduce (a b : LinearForm Rat) (comparison : Comparison) :
    (reduce a comparison b).Canonical where
  overLayout := overLayout_reduce a comparison b
  nodup := nodup_keys_reduce a comparison b
  sorted := (pairwise_keys_reduce a b comparison).imp fun h =>
    h.elim Nat.le_of_lt fun h => (congrArg Kind.place h.1).le
  large := by
    obtain ⟨sign, hsign, hterms⟩ := exists_terms_reduce a b comparison
    rw [hterms, List.forall_mem_map]
    intro t ht
    show zeroTerm < |t.coefficient * sign|
    rw [abs_mul, hsign, mul_one]
    exact (mem_ordered_gathered.mp ht).2.2

/-! ## Mirrored comparisons -/

theorem nodup_terms_of_keys {c : Constraint Rat} (h : c.keys.Nodup) : c.terms.Nodup := h.of_map _

/-- From the other side the terms have the other sign. -/
theorem perm_ordered_gathered (a b : LinearForm Rat) :
    (ordered (merged (gathered a b))).Perm ((ordered (merged (gathered b a))).map (-·)) := by
  have hnodup : (ordered (merged (gathered a b))).Nodup :=
    nodup_terms_of_keys (nodup_keys_reduce a .equal b)
  have hnodup' : ((ordered (merged (gathered b a))).map (-·)).Nodup :=
    nodup_terms_of_keys (nodup_keys_reduce b .greaterOrEqual a)
  refine (List.perm_ext_iff_of_nodup hnodup hnodup').mpr fun t => ?_
  have hback : ∀ t : Term Key Rat, - -t = t := fun t => by
    show (⟨t.var, t.coefficient * -1 * -1⟩ : Term Key Rat) = t
    rw [mul_assoc, neg_mul_neg, one_mul, mul_one]
  have hneg : t ∈ (ordered (merged (gathered b a))).map (-·) ↔
      -t ∈ ordered (merged (gathered b a)) := by
    constructor
    · intro ht
      obtain ⟨t', ht', rfl⟩ := List.mem_map.mp ht
      rwa [hback]
    · exact fun ht => List.mem_map.mpr ⟨-t, ht, hback t⟩
  have hvar : (-t).var = t.var := rfl
  have hcoefficient : (-t).coefficient = t.coefficient * -1 := rfl
  rw [hneg, mem_ordered_gathered, mem_ordered_gathered, hvar, hcoefficient, abs_mul, abs_neg, abs_one,
    mul_one]
  refine and_congr_right fun _ => and_congr_left fun _ => ?_
  constructor <;> intro h <;> linarith

/-- From the other side the constant has the other sign. -/
theorem gatheredConstant_symm (a b : LinearForm Rat) :
    gatheredConstant a b = -gatheredConstant b a := by
  have hpart : ∀ a b : LinearForm Rat,
      (((gathered a b).filter (·.var.key.kind = .constant)).map (·.coefficient)).sum =
        ((a.terms.filter (·.var.key.kind = .constant)).map (·.coefficient)).sum -
          ((b.terms.filter (·.var.key.kind = .constant)).map (·.coefficient)).sum := by
    intro a b
    have hneg : (((b.terms.map (-·)).filter (·.var.key.kind = .constant)).map (·.coefficient)) =
        (b.terms.filter (·.var.key.kind = .constant)).map (·.coefficient * -1) := by
      rw [List.filter_map, List.map_map]
      rfl
    rw [gathered, List.filter_append, List.map_append, List.sum_append, hneg, List.sum_map_mul_right]
    ring
  rw [gatheredConstant_eq, gatheredConstant_eq, hpart, hpart]
  ring

/-- The margin does not depend on the side. -/
theorem margin_symm (a b : LinearForm Rat) :
    margin (ordered (merged (gathered a b))) = margin (ordered (merged (gathered b a))) := by
  have hsizes : ((ordered (merged (gathered a b))).map fun t => |t.coefficient|).sum =
      ((ordered (merged (gathered b a))).map fun t => |t.coefficient|).sum := by
    rw [((perm_ordered_gathered a b).map _).sum_eq, List.map_map]
    refine congrArg List.sum (List.map_congr_left fun t _ => ?_)
    show |t.coefficient * -1| = _
    rw [abs_mul, abs_neg, abs_one, mul_one]
  rw [margin_eq, margin_eq, hsizes]

theorem agrees_less_greater (a b : LinearForm Rat) :
    (reduce a .less b).Agrees (reduce b .greater a) where
  relation := rfl
  constant := by
    show gatheredConstant a b + margin (ordered (merged (gathered a b))) =
      -(gatheredConstant b a - margin (ordered (merged (gathered b a))))
    rw [gatheredConstant_symm, margin_symm]
    ring
  terms := perm_ordered_gathered a b

theorem agrees_lessOrEqual_greaterOrEqual (a b : LinearForm Rat) :
    (reduce a .lessOrEqual b).Agrees (reduce b .greaterOrEqual a) where
  relation := rfl
  constant := gatheredConstant_symm a b
  terms := perm_ordered_gathered a b

/-! ## Reducing again -/

/-- Terms of different variables are merged as they are. -/
theorem entries_merged_of_nodup (hlayout : ∀ t ∈ terms, t.var.key.unrestricted = true)
    (hnodup : (terms.map (·.var.key)).Nodup) :
    (merged terms).entries = terms.map fun t => (t.var.key, t.coefficient) := by
  induction terms using List.reverseRecOn with
  | nil => rfl
  | append_singleton terms t ih =>
    obtain ⟨hlayout, hlast⟩ := List.forall_mem_append.mp hlayout
    rw [List.map_append, List.nodup_append] at hnodup
    have hnew : t.var.key ∉ (merged terms).keys := fun hmem =>
      hnodup.2.2 _ (mem_keys_merged.mp hmem).2 _ (by simp) rfl
    rw [merged_concat, if_pos (hlast t (List.mem_singleton_self t)),
      Table.alter_eq_insert (b := t.coefficient) (by
        rw [Table.get?_eq_none_iff.mpr hnew, Option.getD_none, zero_add]),
      Table.entries_insert_of_notMem hnew, ih hlayout hnodup.1, List.map_append]
    rfl

end Constraint

/-- The comparison with zero that a constraint is. -/
def Relation.comparison : Relation → Comparison
  | lessOrEqual => .lessOrEqual
  | equal => .equal

namespace Constraint

/-- The terms and the constant of a constraint as one side of a comparison. -/
def form (c : Constraint Rat) : LinearForm Rat :=
  ⟨c.terms.filterMap fun t => (Variable.ofKey? t.var).map (⟨·, t.coefficient⟩), c.constant⟩

/-- As a side of a comparison a constraint keeps its terms. -/
theorem map_terms_form {c : Constraint Rat} (h : c.OverLayout) :
    (c.form.terms.map fun t => (⟨t.var.key, t.coefficient⟩ : Term Key Rat)) = c.terms := by
  rw [form, List.map_filterMap]
  refine (List.filterMap_congr fun t ht => ?_).trans List.filterMap_some
  have hkey : Variable.ofKey? t.var = some ⟨t.var, .inl (h t ht)⟩ := dif_pos (.inl (h t ht))
  rw [hkey]
  rfl

/-- A constraint in reduced form stays as it is. -/
theorem Canonical.reduce_form {c : Constraint Rat} (h : c.Canonical) :
    reduce c.form c.relation.comparison (.ofNumber 0) = c := by
  have hback := map_terms_form h.overLayout
  have hkeys : c.form.terms.map (·.var.key) = c.keys := by
    rw [keys, ← hback, List.map_map]
    rfl
  have hlayout : ∀ t ∈ c.form.terms, t.var.key.unrestricted = true := by
    intro t ht
    exact h.overLayout ⟨t.var.key, t.coefficient⟩ (hback ▸ List.mem_map_of_mem ht)
  have hgathered : gathered c.form (.ofNumber 0) = c.form.terms := List.append_nil _
  have hentries := entries_merged_of_nodup hlayout (hkeys ▸ h.nodup)
  have hterms : ordered (merged (gathered c.form (.ofNumber 0))) = c.terms := by
    have hmerged : (merged c.form.terms).keys = c.keys := by
      rw [Table.keys, hentries, List.map_map]
      exact hkeys
    rw [hgathered, ordered_eq_map, hentries, List.map_map]
    · exact hback
    · rw [hentries, List.forall_mem_map]
      exact hlayout
    · rw [hmerged]
      exact h.sorted
    · rw [hentries, List.forall_mem_map]
      intro t ht
      exact h.large ⟨t.var.key, t.coefficient⟩ (hback ▸ List.mem_map_of_mem ht)
  have hconstant : gatheredConstant c.form (.ofNumber 0) = c.constant := by
    have hnone : c.form.terms.filter (·.var.key.kind = .constant) = [] := by
      apply List.filter_eq_nil_iff.mpr
      intro t ht hkind
      have hfree := hlayout t ht
      rw [Key.unrestricted, of_decide_eq_true hkind] at hfree
      cases hfree
    rw [gatheredConstant_eq, hgathered, hnone]
    show c.constant - 0 + 0 = c.constant
    ring
  cases hrelation : c.relation with
  | lessOrEqual =>
    show (⟨_, _, _⟩ : Constraint Rat) = c
    rw [hterms, hconstant, ← hrelation]
  | equal =>
    show (⟨_, _, _⟩ : Constraint Rat) = c
    rw [hterms, hconstant, ← hrelation]

/-- A comparison has one reduced form. It has a term for each variable that has not cancelled, in
the order of the kinds and of the first mentions. Read from the other side, an inequality comes to
the same terms and constant. What is in this form already stays as it is. -/
theorem reduce_canonical (a b : LinearForm Rat) :
    (∀ comparison, (reduce a comparison b).Canonical ∧
      (reduce a comparison b).keys.Pairwise fun k k' => k.kind.place < k'.kind.place ∨
        k.kind = k'.kind ∧ (mentions a b).idxOf k < (mentions a b).idxOf k') ∧
    (reduce a .less b).Agrees (reduce b .greater a) ∧
    (reduce a .lessOrEqual b).Agrees (reduce b .greaterOrEqual a) ∧
    ∀ c : Constraint Rat, c.Canonical → reduce c.form c.relation.comparison (.ofNumber 0) = c :=
  ⟨fun comparison => ⟨canonical_reduce a b comparison, pairwise_keys_reduce a b comparison⟩,
    agrees_less_greater a b, agrees_lessOrEqual_greaterOrEqual a b, fun _ => Canonical.reduce_form⟩

/-- A constraint over two kinds of variables stays as it is. It is what `2 v0 + g0 ≤ v0 + l1 + g0 -
3` comes to, where the shared variable cancels. -/
theorem reduce_canonical_of_cancelled :
    let v := Variable.external 0
    let l := Variable.localAux 1
    let g := Variable.globalAux 0
    let c := reduce ⟨[⟨v, 2⟩, ⟨g, 1⟩], 0⟩ .lessOrEqual ⟨[⟨v, 1⟩, ⟨l, 1⟩, ⟨g, 1⟩], -3⟩
    c = ⟨[⟨v.key, 1⟩, ⟨l.key, -1⟩], 3, .lessOrEqual⟩ ∧ c.Canonical ∧
      reduce c.form .lessOrEqual (.ofNumber 0) = c := by
  intro v l g c
  obtain ⟨hform, -, -, hagain⟩ := reduce_canonical ⟨[⟨v, 2⟩, ⟨g, 1⟩], 0⟩
    ⟨[⟨v, 1⟩, ⟨l, 1⟩, ⟨g, 1⟩], -3⟩
  have hc : c.Canonical := (hform .lessOrEqual).1
  refine ⟨?_, hc, hagain c hc⟩
  decide +kernel

end Constraint

end Cassowary
