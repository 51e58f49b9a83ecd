import Cassowary.Proofs.Negation
import Cassowary.Proofs.Packing
import Cassowary.Solver.Basic

/-!
# Texts that can be read back

Rows, constraints and whole tableaux are written for people, and equal texts stand for equal things
in the tests of a layout. That is right if the texts of numbers are different for different numbers
and free of what separates them: white space, commas and asterisks. Nothing else is asked of the
numbers.

A text is read from the left. A product ends where a space comes, and its coefficient where the
asterisk comes; the constant at the end has no asterisk. From the second term on, the sign of a
number stands apart from it, and the number is determined by its sign and its magnitude since
negation is its own inverse. A line ends where the next one begins, and a queue where the bracket
comes.

How a row is scaled cannot be seen in its text, which tells the coefficients that come of it.

## Main definitions

* `Separable` — items that can be told apart when they are written one after the other
* `Legible` — what is asked of the texts of numbers

## Main results

* `Separable.injective` — lists of items can be read back
* `Legible.row_injective`, `Legible.constraint_injective`, `Legible.dump_injective` — so can rows,
  constraints and tableaux
* `Legible.texts_injective` — no text is ambiguous
-/

namespace Cassowary

/-! ## Cutting texts -/

/-- A text is cut in one way only at the first place where a character occurs. -/
theorem append_cons_inj {γ : Type} {c : γ} {u u' r r' : List γ} (hu : c ∉ u) (hu' : c ∉ u')
    (h : u ++ c :: r = u' ++ c :: r') : u = u' ∧ r = r' := by
  induction u generalizing u' with
  | nil =>
    cases u' with
    | nil => exact ⟨rfl, (List.cons.inj h).2⟩
    | cons d u' => exact absurd (List.cons.inj h).1 fun heq => hu' (heq ▸ List.mem_cons_self)
  | cons d u ih =>
    cases u' with
    | nil => exact absurd (List.cons.inj h).1 fun heq => hu (heq ▸ List.mem_cons_self)
    | cons d' u' =>
      obtain ⟨rfl, htail⟩ := List.cons.inj h
      obtain ⟨rfl, hr⟩ := ih (fun hc => hu (List.mem_cons_of_mem _ hc))
        (fun hc => hu' (List.mem_cons_of_mem _ hc)) htail
      exact ⟨rfl, hr⟩

/-- Items that can be told apart when they are written one after the other, as far as `g` looks at
them: each can be cut off from what may follow it, and none can be mistaken for the end. -/
structure Separable {ι κ γ : Type} (f : ι → List γ) (g : ι → κ) (P : ι → Prop)
    (follows ends : List γ → Prop) : Prop where
  item : ∀ {a b r r'}, P a → P b → follows r → follows r' → f a ++ r = f b ++ r' →
    g a = g b ∧ r = r'
  follows_item : ∀ a r, follows (f a ++ r)
  follows_end : ∀ {e}, ends e → follows e
  ne_end : ∀ {a r e}, P a → ends e → f a ++ r ≠ e

namespace Separable

variable {ι κ γ : Type} {f : ι → List γ} {g : ι → κ} {P : ι → Prop} {follows ends : List γ → Prop}
  (h : Separable f g P follows ends)
include h

theorem follows_flatMap (l : List ι) {e : List γ} (he : ends e) : follows (l.flatMap f ++ e) := by
  cases l with
  | nil => exact h.follows_end he
  | cons a l =>
    rw [List.flatMap_cons, List.append_assoc]
    exact h.follows_item a _

/-- A list of items can be read back, together with what comes after it. -/
theorem injective {l l' : List ι} {e e' : List γ} (hl : ∀ a ∈ l, P a) (hl' : ∀ a ∈ l', P a)
    (he : ends e) (he' : ends e') (heq : l.flatMap f ++ e = l'.flatMap f ++ e') :
    l.map g = l'.map g ∧ e = e' := by
  induction l generalizing l' with
  | nil =>
    cases l' with
    | nil => exact ⟨rfl, heq⟩
    | cons b l' =>
      rw [List.flatMap_cons, List.append_assoc] at heq
      exact absurd heq.symm (h.ne_end (hl' b List.mem_cons_self) he)
  | cons a l ih =>
    cases l' with
    | nil =>
      rw [List.flatMap_cons, List.append_assoc] at heq
      exact absurd heq (h.ne_end (hl a List.mem_cons_self) he')
    | cons b l' =>
      rw [List.flatMap_cons, List.flatMap_cons, List.append_assoc, List.append_assoc] at heq
      -- What may follow the first item shows where it ends
      obtain ⟨hab, hrest⟩ := h.item (hl a List.mem_cons_self) (hl' b List.mem_cons_self)
        (h.follows_flatMap l he) (h.follows_flatMap l' he') heq
      obtain ⟨hmap, hends⟩ := ih (fun c hc => hl c (List.mem_cons_of_mem _ hc))
        (fun c hc => hl' c (List.mem_cons_of_mem _ hc)) hrest
      exact ⟨by rw [List.map_cons, List.map_cons, hab, hmap], hends⟩

end Separable

/-! ## Numbers and keys -/

/-- A character that does not separate anything. -/
def Plain (c : Char) : Prop := c.isWhitespace = false ∧ c ≠ ',' ∧ c ≠ '*'

instance (c : Char) : Decidable (Plain c) := inferInstanceAs (Decidable (_ ∧ _))

/-- Numbers have different texts without separators. Nothing is asked of the text of a NaN. -/
structure Legible (write : Float → String) : Prop where
  injective : ∀ {x y}, Scalar.isNaN x = false → Scalar.isNaN y = false → write x = write y → x = y
  plain : ∀ {x}, Scalar.isNaN x = false → ∀ c ∈ (write x).toList, Plain c

theorem Plain.of_isDigit {c : Char} (hc : c.isDigit = true) : Plain c ∧ c ≠ ']' := by
  have hne : ∀ d : Char, d.isDigit = false → c ≠ d := fun d hd heq =>
    Bool.eq_false_iff.mp hd (heq ▸ hc)
  refine ⟨⟨?_, hne ',' rfl, hne '*' rfl⟩, hne ']' rfl⟩
  unfold Char.isWhitespace
  simp [hne ' ' rfl, hne '\t' rfl, hne '\r' rfl, hne '\n' rfl]

namespace Key

/-- The text of a key has no separators, and no bracket either. -/
theorem plain_of_mem_text {k : Key} {c : Char} (hc : c ∈ k.text.toList) : Plain c ∧ c ≠ ']' := by
  rw [toList_text, List.mem_cons, List.mem_append] at hc
  rcases hc with rfl | hc | hc
  · cases k.kind <;> decide
  · exact Plain.of_isDigit (Nat.isDigit_of_mem_toDigits (by decide) (by decide) hc)
  · have hprime : c = '\x27' := by
      split at hc
      · exact List.mem_singleton.mp hc
      · cases hc
    rw [hprime]
    decide

theorem toList_text_injective {a b : Key} (h : a.text.toList = b.text.toList) : a = b :=
  text_injective (String.toList_injective h)

end Key

namespace Legible

/-! ## Coefficients and signs -/

variable {write : Float → String}

/-- What a space comes first in. -/
def Spaced (r : List Char) : Prop := ∃ r₀, r = ' ' :: r₀

/-- The text of a coefficient and its key. -/
def product (write : Float → String) (x : Float) (k : Key) : List Char :=
  (write x).toList ++ '*' :: k.text.toList

theorem toList_term (t : Term Key Float) :
    (t.text write).toList = product write t.coefficient t.var := by
  rw [Term.text, String.toList_append, String.toList_append, List.append_assoc]
  rfl

/-- The sign of a number that is added to something. -/
def mark {α : Type} [Scalar α] (x : α) : Char := if x < 0 then '-' else '+'

theorem toList_addend {α : Type} [Scalar α] {write : α → String} (x : α) :
    (Row.addend write x).toList = ' ' :: mark x :: ' ' :: (write (Scalar.magnitude x)).toList := by
  unfold Row.addend mark Scalar.magnitude
  by_cases hx : x < 0
  · rw [if_pos hx, if_pos hx, if_pos hx, String.toList_append]
    rfl
  · rw [if_neg hx, if_neg hx, if_neg hx, String.toList_append]
    rfl

/-- A number is determined by its sign and its magnitude, if negation loses nothing. -/
theorem eq_of_mark {α : Type} [Scalar α] {x y : α} (hneg : -x = -y → x = y) (hmark : mark x = mark y)
    (h : Scalar.magnitude x = Scalar.magnitude y) : x = y := by
  unfold mark at hmark
  unfold Scalar.magnitude at h
  by_cases hx : x < 0 <;> by_cases hy : y < 0
  · rw [if_pos hx, if_pos hy] at h
    exact hneg h
  · rw [if_pos hx, if_neg hy] at hmark
    cases hmark
  · rw [if_neg hx, if_pos hy] at hmark
    cases hmark
  · rwa [if_neg hx, if_neg hy] at h

theorem isNaN_magnitude (x : Float) :
    Scalar.isNaN (Scalar.magnitude x) = Scalar.isNaN x := by
  unfold Scalar.magnitude
  split
  · exact Scalar.isNaN_neg_float x
  · rfl

section Readable

variable (hwrite : Legible write) {x y : Float} {k k' : Key}
include hwrite

theorem toList_injective (hx : Scalar.isNaN x = false) (hy : Scalar.isNaN y = false)
    (h : (write x).toList = (write y).toList) : x = y :=
  hwrite.injective hx hy (String.toList_injective h)

/-- What separates is in no number. -/
theorem not_mem {c : Char} (hc : ¬ Plain c) (hx : Scalar.isNaN x = false) : c ∉ (write x).toList :=
  fun hmem => hc (hwrite.plain hx c hmem)

/-- Of what separates, only the asterisk is in a product. -/
theorem not_mem_product {c : Char} (hc : ¬ Plain c) (hstar : c ≠ '*')
    (hx : Scalar.isNaN x = false) : c ∉ product write x k := by
  unfold product
  rw [List.mem_append, List.mem_cons]
  rintro (hmem | rfl | hmem)
  · exact hwrite.not_mem hc hx hmem
  · exact hstar rfl
  · exact hc (Key.plain_of_mem_text hmem).1

theorem product_injective (hx : Scalar.isNaN x = false) (hy : Scalar.isNaN y = false)
    (h : product write x k = product write y k') : x = y ∧ k = k' := by
  obtain ⟨hnumber, hkey⟩ := append_cons_inj (hwrite.not_mem (by decide) hx)
    (hwrite.not_mem (by decide) hy) h
  exact ⟨hwrite.toList_injective hx hy hnumber, Key.toList_text_injective hkey⟩

/-- A product ends where a space comes. -/
theorem product_append_injective {r r' : List Char} (hx : Scalar.isNaN x = false)
    (hy : Scalar.isNaN y = false) (hr : Spaced r) (hr' : Spaced r')
    (h : product write x k ++ r = product write y k' ++ r') : (x = y ∧ k = k') ∧ r = r' := by
  obtain ⟨r, rfl⟩ := hr
  obtain ⟨r', rfl⟩ := hr'
  obtain ⟨hproduct, rfl⟩ := append_cons_inj (hwrite.not_mem_product (by decide) (by decide) hx)
    (hwrite.not_mem_product (by decide) (by decide) hy) h
  exact ⟨hwrite.product_injective hx hy hproduct, rfl⟩

/-- A product is not a number. -/
theorem product_ne (hy : Scalar.isNaN y = false) : product write x k ≠ (write y).toList :=
  fun h => hwrite.not_mem (c := '*') (by decide) hy
    (h ▸ List.mem_append_right _ List.mem_cons_self)

end Readable

/-! ## Rows -/

/-- No coefficient is a NaN, and neither is the constant. -/
def Numeric (terms : List (Term Key Float)) (constant : Float) : Prop :=
  (∀ t ∈ terms, Scalar.isNaN t.coefficient = false) ∧ Scalar.isNaN constant = false

instance (terms : List (Term Key Float)) (constant : Float) : Decidable (Numeric terms constant) :=
  inferInstanceAs (Decidable (_ ∧ _))

/-- The text of a term that comes after another one. -/
def summand (write : Float → String) (t : Term Key Float) : List Char :=
  ' ' :: mark t.coefficient :: ' ' :: product write (Scalar.magnitude t.coefficient) t.var

theorem toList_row_of_nil {r : Row Float} (h : r.terms = []) :
    (r.text write).toList = (write r.constant).toList := by
  rw [Row.text, h]

theorem toList_row_of_cons {r : Row Float} {t : Term Key Float} {ts : List (Term Key Float)}
    (h : r.terms = t :: ts) : (r.text write).toList =
      product write t.coefficient t.var ++
        (ts.flatMap (summand write) ++ (Row.addend write r.constant).toList) := by
  have hsummand : ∀ t : Term Key Float, (Row.addend write t.coefficient).toList ++
      ("*".toList ++ t.var.text.toList) = summand write t := fun t => by
    rw [toList_addend]
    rfl
  rw [Row.text, h]
  simp only [String.toList_append, toList_term, String.toList_join, List.flatMap_map,
    List.append_assoc, hsummand]

/-- The constant at the end of a row. -/
def Closing (write : Float → String) (e : List Char) : Prop :=
  ∃ x, Scalar.isNaN x = false ∧ e = (Row.addend write x).toList

section Readable

variable (hwrite : Legible write)
include hwrite

theorem separable_summand : Separable (summand write) id
    (fun t => Scalar.isNaN t.coefficient = false) Spaced (Closing write) where
  item := by
    rintro ⟨k, c⟩ ⟨k', c'⟩ r r' hc hc' hr hr' heq
    rw [← isNaN_magnitude] at hc hc'
    simp only [summand, List.cons_append, List.cons.injEq, true_and] at heq
    obtain ⟨⟨hsame, rfl⟩, rfl⟩ := hwrite.product_append_injective hc hc' hr hr' heq.2
    rw [eq_of_mark (Scalar.neg_injective_float ·) heq.1 hsame]
    exact ⟨rfl, rfl⟩
  follows_item t r := ⟨_, rfl⟩
  follows_end := by
    rintro _ ⟨x, -, rfl⟩
    exact ⟨_, toList_addend x⟩
  ne_end := by
    rintro t r _ - ⟨x, hx, rfl⟩ heq
    rw [toList_addend] at heq
    simp only [summand, List.cons_append, List.cons.injEq, true_and] at heq
    refine hwrite.not_mem (c := '*') (by decide) ((isNaN_magnitude x).trans hx) ?_
    rw [← heq.2]
    exact List.mem_append_left _ (List.mem_append_right _ List.mem_cons_self)

theorem addend_injective {x x' : Float} (hx : Scalar.isNaN x = false)
    (hx' : Scalar.isNaN x' = false)
    (h : (Row.addend write x).toList = (Row.addend write x').toList) : x = x' := by
  rw [toList_addend, toList_addend] at h
  simp only [List.cons.injEq, true_and] at h
  exact eq_of_mark (Scalar.neg_injective_float ·) h.1 (hwrite.toList_injective
    ((isNaN_magnitude x).trans hx) ((isNaN_magnitude x').trans hx') h.2)

/-- A row can be read back: its terms in order, with their coefficients, and its constant. -/
theorem row_injective {r r' : Row Float} (hr : Numeric r.terms r.constant)
    (hr' : Numeric r'.terms r'.constant) (h : r.text write = r'.text write) :
    r.terms = r'.terms ∧ r.constant = r'.constant := by
  have hlist := congrArg String.toList h
  cases hterms : r.terms with
  | nil =>
    rw [toList_row_of_nil hterms] at hlist
    cases hterms' : r'.terms with
    | nil =>
      rw [toList_row_of_nil hterms'] at hlist
      exact ⟨rfl, hwrite.toList_injective hr.2 hr'.2 hlist⟩
    | cons t ts =>
      rw [toList_row_of_cons hterms', product] at hlist
      refine absurd ?_ (hwrite.not_mem (c := '*') (by decide) hr.2)
      rw [hlist]
      simp
  | cons t ts =>
    rw [toList_row_of_cons hterms] at hlist
    cases hterms' : r'.terms with
    | nil =>
      rw [toList_row_of_nil hterms', product] at hlist
      refine absurd ?_ (hwrite.not_mem (c := '*') (by decide) hr'.2)
      rw [← hlist]
      simp
    | cons t' ts' =>
      rw [toList_row_of_cons hterms'] at hlist
      rw [hterms] at hr
      rw [hterms'] at hr'
      have hclosing : Closing write (Row.addend write r.constant).toList := ⟨_, hr.2, rfl⟩
      have hclosing' : Closing write (Row.addend write r'.constant).toList := ⟨_, hr'.2, rfl⟩
      obtain ⟨⟨hcoefficient, hvar⟩, hrest⟩ := hwrite.product_append_injective
        (hr.1 t List.mem_cons_self) (hr'.1 t' List.mem_cons_self)
        (hwrite.separable_summand.follows_flatMap ts hclosing)
        (hwrite.separable_summand.follows_flatMap ts' hclosing') hlist
      obtain ⟨hts, hend⟩ := hwrite.separable_summand.injective
        (fun a ha => hr.1 a (List.mem_cons_of_mem _ ha))
        (fun a ha => hr'.1 a (List.mem_cons_of_mem _ ha)) hclosing hclosing' hrest
      rw [List.map_id, List.map_id] at hts
      have ht : t = t' := by
        cases t
        cases t'
        exact congrArg₂ Term.mk hvar hcoefficient
      exact ⟨by rw [ht, hts], hwrite.addend_injective hr.2 hr'.2 hend⟩

end Readable

/-! ## Constraints -/

/-- The text of a term in a constraint. -/
def posted (write : Float → String) (t : Term Key Float) : List Char :=
  product write t.coefficient t.var ++ [' ', '+', ' ']

/-- What is written for a comparison with zero. -/
def against : Relation → List Char
  | .lessOrEqual => ['<', '=', ' ', '0']
  | .equal => ['=', '=', ' ', '0']

theorem against_injective : Function.Injective against := by
  rintro (_ | _) (_ | _) h
  · rfl
  · cases h
  · cases h
  · rfl

/-- The constant at the end of a constraint, and the comparison. -/
def Bounding (write : Float → String) (e : List Char) : Prop :=
  ∃ x relation, Scalar.isNaN x = false ∧ e = (write x).toList ++ ' ' :: against relation

theorem toList_constraint (c : Constraint Float) : (c.text write).toList =
    c.terms.flatMap (posted write) ++ ((write c.constant).toList ++ ' ' :: against c.relation) := by
  obtain ⟨terms, constant, relation⟩ := c
  cases relation <;>
    simp only [Constraint.text, String.toList_append, String.toList_join, List.flatMap_map,
      List.append_assoc, toList_term] <;>
    rfl

section Readable

variable (hwrite : Legible write)
include hwrite

theorem separable_posted : Separable (posted write) id
    (fun t => Scalar.isNaN t.coefficient = false) (fun _ => True) (Bounding write) where
  item := by
    rintro ⟨k, c⟩ ⟨k', c'⟩ r r' hc hc' - - heq
    simp only [posted, List.append_assoc, List.cons_append, List.nil_append] at heq
    obtain ⟨⟨rfl, rfl⟩, hr⟩ := hwrite.product_append_injective hc hc' ⟨_, rfl⟩ ⟨_, rfl⟩ heq
    simp only [List.cons.injEq, true_and] at hr
    exact ⟨rfl, hr⟩
  follows_item _ _ := trivial
  follows_end _ := trivial
  ne_end := by
    rintro t r _ ht ⟨x, relation, hx, rfl⟩ heq
    simp only [posted, List.append_assoc, List.cons_append] at heq
    obtain ⟨hproduct, -⟩ := append_cons_inj (hwrite.not_mem_product (by decide) (by decide) ht)
      (hwrite.not_mem (by decide) hx) heq
    exact hwrite.product_ne hx hproduct

/-- A constraint can be read back. -/
theorem constraint_injective {c c' : Constraint Float} (hc : Numeric c.terms c.constant)
    (hc' : Numeric c'.terms c'.constant) (h : c.text write = c'.text write) : c = c' := by
  have hlist := congrArg String.toList h
  rw [toList_constraint, toList_constraint] at hlist
  obtain ⟨hterms, hend⟩ := hwrite.separable_posted.injective hc.1 hc'.1 ⟨_, _, hc.2, rfl⟩
    ⟨_, _, hc'.2, rfl⟩ hlist
  obtain ⟨hconstant, hrelation⟩ := append_cons_inj (hwrite.not_mem (by decide) hc.2)
    (hwrite.not_mem (by decide) hc'.2) hend
  rw [List.map_id, List.map_id] at hterms
  cases c
  cases c'
  exact (Constraint.mk.injEq ..).mpr ⟨hterms, hwrite.toList_injective hc.2 hc'.2 hconstant,
    against_injective hrelation⟩

end Readable

/-! ## Solvers -/

/-- The line of a row. -/
def line (write : Float → String) (e : Key × Row Float) : List Char :=
  ' ' :: ' ' :: (e.1.text.toList ++ ' ' :: '=' :: ' ' :: ((e.2.text write).toList ++ ['\n']))

/-- The keys of the queue, each with a comma after it but for the last. -/
def listed (ks : List Key) : List Char := [',', ' '].intercalate (ks.map (·.text.toList))

theorem listed_append {ks : List Key} (h : ks ≠ []) :
    listed ks ++ [',', ' '] = ks.flatMap fun k => k.text.toList ++ [',', ' '] := by
  induction ks with
  | nil => exact absurd rfl h
  | cons k ks ih =>
    cases ks with
    | nil => simp [listed]
    | cons k' ks =>
      rw [List.flatMap_cons, ← ih (List.cons_ne_nil k' ks)]
      simp [listed]

theorem separable_key : Separable (fun k : Key => k.text.toList ++ [',', ' ']) id (fun _ => True)
    (fun _ => True) (· = []) where
  item := by
    intro k k' r r' _ _ _ _ heq
    simp only [List.append_assoc, List.cons_append, List.nil_append] at heq
    have hcomma : ∀ k : Key, ',' ∉ k.text.toList := fun k hmem =>
      absurd (Key.plain_of_mem_text hmem).1 (by decide)
    obtain ⟨hkey, hr⟩ := append_cons_inj (hcomma k) (hcomma k') heq
    exact ⟨Key.toList_text_injective hkey, (List.cons.inj hr).2⟩
  follows_item _ _ := trivial
  follows_end _ := trivial
  ne_end := by
    rintro k r _ - rfl heq
    rw [List.append_assoc, List.append_eq_nil_iff] at heq
    cases (List.append_eq_nil_iff.mp heq.2).1

/-- The text of a queue is empty only if the queue is. -/
theorem listed_eq_nil_iff {ks : List Key} : listed ks = [] ↔ ks = [] := by
  refine ⟨fun h => ?_, fun h => h ▸ rfl⟩
  by_contra hne
  obtain ⟨k, ks, rfl⟩ := List.exists_cons_of_ne_nil hne
  have happend := listed_append hne
  rw [h, List.flatMap_cons, Key.toList_text] at happend
  exact absurd (List.cons.inj happend).1 (by cases k.kind <;> decide)

/-- The keys of a queue can be read back. -/
theorem listed_injective {ks ks' : List Key} (h : listed ks = listed ks') : ks = ks' := by
  by_cases hnil : ks = []
  · rw [hnil] at h ⊢
    exact (listed_eq_nil_iff.mp h.symm).symm
  · have hnil' : ks' ≠ [] := fun heq => hnil (listed_eq_nil_iff.mp (h.trans (heq ▸ rfl)))
    have hitems : (ks.flatMap fun k => k.text.toList ++ [',', ' ']) ++ [] =
        (ks'.flatMap fun k => k.text.toList ++ [',', ' ']) ++ [] := by
      rw [← listed_append hnil, ← listed_append hnil', h]
    have hkeys := (separable_key.injective (fun _ _ => trivial) (fun _ _ => trivial) rfl rfl
      hitems).1
    rwa [List.map_id, List.map_id] at hkeys

theorem bracket_not_mem_listed (ks : List Key) : ']' ∉ listed ks := by
  by_cases hnil : ks = []
  · rw [hnil]
    exact List.not_mem_nil
  · intro hmem
    have hitem := listed_append hnil ▸ List.mem_append_left [',', ' '] hmem
    obtain ⟨k, -, hk⟩ := List.mem_flatMap.mp hitem
    rcases List.mem_append.mp hk with hk | hk
    · exact (Key.plain_of_mem_text hk).2 rfl
    · revert hk
      decide

section Readable

variable (hwrite : Legible write)
include hwrite

theorem newline_not_mem_row {r : Row Float} (hr : Numeric r.terms r.constant) :
    '\n' ∉ (r.text write).toList := by
  have hmark : ∀ x : Float, '\n' ≠ mark x := fun x => by
    unfold mark
    split <;> decide
  cases hterms : r.terms with
  | nil =>
    rw [toList_row_of_nil hterms]
    exact hwrite.not_mem (by decide) hr.2
  | cons t ts =>
    rw [hterms] at hr
    rw [toList_row_of_cons hterms, List.mem_append, List.mem_append, List.mem_flatMap]
    rintro (hmem | ⟨t', ht', hmem⟩ | hmem)
    · exact hwrite.not_mem_product (by decide) (by decide) (hr.1 t List.mem_cons_self) hmem
    · have ht := (isNaN_magnitude t'.coefficient).trans (hr.1 t' (List.mem_cons_of_mem _ ht'))
      have hproduct := hwrite.not_mem_product (k := t'.var) (c := '\n') (by decide) (by decide) ht
      simp [summand, hmark, hproduct] at hmem
    · have hnumber := hwrite.not_mem (c := '\n') (by decide) ((isNaN_magnitude _).trans hr.2)
      simp [toList_addend, hmark, hnumber] at hmem

theorem separable_line : Separable (line write) (fun e => (e.1, e.2.terms, e.2.constant))
    (fun e => Numeric e.2.terms e.2.constant) (fun _ => True) (fun e => ∃ r, e = 'i' :: r) where
  item := by
    rintro ⟨k, row⟩ ⟨k', row'⟩ r r' hrow hrow' - - heq
    simp only [line, List.append_assoc, List.cons_append, List.cons.injEq, true_and,
      List.nil_append] at heq
    have hspace : ∀ k : Key, ' ' ∉ k.text.toList := fun k hmem =>
      absurd (Key.plain_of_mem_text hmem).1 (by decide)
    obtain ⟨hkey, hrest⟩ := append_cons_inj (hspace k) (hspace k') heq
    simp only [List.cons.injEq, true_and] at hrest
    obtain ⟨htext, hr⟩ := append_cons_inj (hwrite.newline_not_mem_row hrow)
      (hwrite.newline_not_mem_row hrow') hrest
    obtain ⟨hterms, hconstant⟩ := hwrite.row_injective hrow hrow' (String.toList_injective htext)
    exact ⟨by rw [Key.toList_text_injective hkey, hterms, hconstant], hr⟩
  follows_item _ _ := trivial
  follows_end _ := trivial
  ne_end := by
    rintro e r _ - ⟨r', rfl⟩ heq
    cases heq

end Readable

theorem toList_dump (s : Solver Float) : (s.dump write).toList = "objective: ".toList ++
    ((s.state.tableau.objective.text write).toList ++ '\n' :: ("rows:\n".toList ++
      (s.state.tableau.rows.entries.flatMap (line write) ++ 'i' :: ("nfeasible: [".toList ++
        (listed s.state.tableau.infeasible.reverse ++ ']' :: '\n' ::
          (if s.poisoned then "poisoned\n" else "").toList))))) := by
  have hline : ∀ e : Key × Row Float, "  ".toList ++ (e.1.text.toList ++ (" = ".toList ++
      ((e.2.text write).toList ++ "\n".toList))) = line write e := fun _ => rfl
  unfold Solver.dump
  simp only [String.toList_append, String.toList_join, String.toList_intercalate, List.flatMap_map,
    List.map_map, List.append_assoc, hline]
  rfl

/-- Nothing that a dump shows is a NaN. -/
def NumericDump (s : Solver Float) : Prop :=
  Numeric s.state.tableau.objective.terms s.state.tableau.objective.constant ∧
    ∀ e ∈ s.state.tableau.rows.entries, Numeric e.2.terms e.2.constant

instance (s : Solver Float) : Decidable (NumericDump s) := inferInstanceAs (Decidable (_ ∧ _))

/-- The tableau of a solver can be read back, but for how its rows are scaled. -/
theorem dump_injective (hwrite : Legible write) {s s' : Solver Float} (hs : NumericDump s)
    (hs' : NumericDump s') (h : s.dump write = s'.dump write) :
    (s.state.tableau.rows.entries.map fun e => (e.1, e.2.terms, e.2.constant)) =
      (s'.state.tableau.rows.entries.map fun e => (e.1, e.2.terms, e.2.constant)) ∧
    (s.state.tableau.objective.terms = s'.state.tableau.objective.terms ∧
      s.state.tableau.objective.constant = s'.state.tableau.objective.constant) ∧
    s.state.tableau.infeasible = s'.state.tableau.infeasible ∧ s.poisoned = s'.poisoned := by
  have hlist := congrArg String.toList h
  rw [toList_dump, toList_dump] at hlist
  obtain ⟨hobjective, hrest⟩ := append_cons_inj (hwrite.newline_not_mem_row hs.1)
    (hwrite.newline_not_mem_row hs'.1) (List.append_cancel_left hlist)
  obtain ⟨hrows, hrest⟩ := hwrite.separable_line.injective hs.2 hs'.2 ⟨_, rfl⟩ ⟨_, rfl⟩
    (List.append_cancel_left hrest)
  obtain ⟨hqueue, hrest⟩ := append_cons_inj (bracket_not_mem_listed _) (bracket_not_mem_listed _)
    (List.append_cancel_left (List.cons.inj hrest).2)
  refine ⟨hrows, hwrite.row_injective hs.1 hs'.1 (String.toList_injective hobjective),
    List.reverse_inj.mp (listed_injective hqueue), ?_⟩
  have hmark := (List.cons.inj hrest).2
  cases hpoisoned : s.poisoned <;> cases hpoisoned' : s'.poisoned <;>
    rw [hpoisoned, hpoisoned'] at hmark
  · cases hmark
  · cases hmark

/-- Texts are unambiguous, whatever the text of a number is like, if it has no white space, comma or
asterisk and tells apart all numbers but NaNs. Rows without a NaN that have the same text have the
same terms in the same order and the same constant, however they are scaled; constraints with the
same text are the same; and solvers with the same dump have the same basic variables in the same
order, with the same rows, the same objective and the same queue. -/
theorem texts_injective (hwrite : Legible write) :
    (∀ r r' : Row Float, Numeric r.terms r.constant → Numeric r'.terms r'.constant →
      r.text write = r'.text write → r.terms = r'.terms ∧ r.constant = r'.constant) ∧
    (∀ c c' : Constraint Float, Numeric c.terms c.constant → Numeric c'.terms c'.constant →
      c.text write = c'.text write → c = c') ∧
    ∀ s s' : Solver Float, NumericDump s → NumericDump s' → s.dump write = s'.dump write →
      s.state.tableau.rows.keys = s'.state.tableau.rows.keys ∧
      (s.state.tableau.rows.entries.map fun e => (e.1, e.2.terms, e.2.constant)) =
        (s'.state.tableau.rows.entries.map fun e => (e.1, e.2.terms, e.2.constant)) ∧
      (s.state.tableau.objective.terms = s'.state.tableau.objective.terms ∧
        s.state.tableau.objective.constant = s'.state.tableau.objective.constant) ∧
      s.state.tableau.infeasible = s'.state.tableau.infeasible ∧ s.poisoned = s'.poisoned := by
  refine ⟨fun r r' hr hr' => hwrite.row_injective hr hr',
    fun c c' hc hc' => hwrite.constraint_injective hc hc', fun s s' hs hs' h => ?_⟩
  have hdump := hwrite.dump_injective hs hs' h
  have hkeys := congrArg (List.map Prod.fst) hdump.1
  rw [List.map_map, List.map_map] at hkeys
  exact ⟨hkeys, hdump⟩

/-! ### Numbers for an example -/

/-- Some numbers with their digits. -/
def samples : List (Float × List Char) := [(0, ['0']), (2, ['2']), (3, ['3']), (-3, ['-', '3'])]

/-- The pattern of a number in decimal, after a letter. -/
def pattern (x : Float) : List Char := 'b' :: Nat.toDigits 10 x.toBits.toNat

theorem pattern_injective : Function.Injective pattern := by
  intro x y h
  have hbits : x.toBits = y.toBits := UInt64.toNat_inj.mp <| by
    rw [← Nat.ofDigitChars_ten_toDigits (n := x.toBits.toNat), (List.cons.inj h).2,
      Nat.ofDigitChars_ten_toDigits]
  obtain ⟨⟨bits, _⟩⟩ := x
  obtain ⟨⟨bits', _⟩⟩ := y
  cases (show bits = bits' from hbits)
  rfl

/-- The digits of a sample, or else the pattern of a number. -/
def digits (x : Float) : List Char := ((samples.find? fun e => e.1 = x).map (·.2)).getD (pattern x)

def sampled (x : Float) : String := String.ofList (digits x)

theorem digits_cases (x : Float) : (∃ e ∈ samples, e.1 = x ∧ digits x = e.2) ∨
    digits x = pattern x := by
  unfold digits
  cases hfind : samples.find? fun e => e.1 = x with
  | none => exact .inr rfl
  | some e =>
    exact .inl ⟨e, List.mem_of_find?_eq_some hfind, by simpa using List.find?_some hfind, rfl⟩

theorem legible_sampled : Legible sampled where
  injective {x y} _ _ h := by
    have hsamples : ∀ e ∈ samples, ∀ e' ∈ samples, e.2 = e'.2 → e.1 = e'.1 := by decide +kernel
    have hdecimal : ∀ e ∈ samples, e.2.head? ≠ some 'b' := by decide +kernel
    have hdigits : digits x = digits y := String.ofList_injective h
    rcases digits_cases x with ⟨e, he, rfl, hx⟩ | hx <;>
      rcases digits_cases y with ⟨e', he', rfl, hy⟩ | hy <;> rw [hx, hy] at hdigits
    · exact hsamples e he e' he' hdigits
    · exact absurd (congrArg List.head? hdigits) (hdecimal e he)
    · exact absurd (congrArg List.head? hdigits.symm) (hdecimal e' he')
    · exact pattern_injective hdigits
  plain {x} _ c hc := by
    have hsamples : ∀ e ∈ samples, e.2.all (decide <| Plain ·) = true := by decide +kernel
    rw [sampled, String.toList_ofList] at hc
    rcases digits_cases x with ⟨e, he, rfl, hx⟩ | hx <;> rw [hx] at hc
    · exact of_decide_eq_true (List.all_eq_true.mp (hsamples e he) c hc)
    · rcases List.mem_cons.mp hc with rfl | hc
      · decide
      · exact (Plain.of_isDigit (Nat.isDigit_of_mem_toDigits (by decide) (by decide) hc)).1

/-- A row, and the same row at another scale. -/
def doubled : Row Float := ⟨.ofList [(.ofIndex .external false 0, 1)], 2, -3⟩

def unscaled : Row Float := ⟨.ofList [(.ofIndex .external false 0, 2)], 1, -3⟩

/-- A solver with one of the rows, and a queue. -/
def solverWith (row : Row Float) : Solver Float :=
  let s : Solver Float := .ofConfig .default
  { s with state := { s.state with tableau := { s.state.tableau with
      rows := .ofList [(.ofIndex .slack false 0, row)],
      infeasible := [.ofIndex .slack false 0, .ofIndex .slack false 1] } } }

/-- The sign of the constant stands apart from it. Both rows have the same text, so they have the
same terms and the same constant; and solvers with the one or the other have the same dump, so they
have the same queue. -/
theorem texts_injective_doubled : Legible sampled ∧
    (doubled.text sampled = "2*v0 - 3" ∧ unscaled.text sampled = "2*v0 - 3" ∧
      doubled.scale ≠ unscaled.scale ∧ doubled.terms = unscaled.terms ∧
      doubled.constant = unscaled.constant) ∧
    (solverWith doubled).dump sampled =
      "objective: 0\nrows:\n  s0 = 2*v0 - 3\ninfeasible: [s1, s0]\n" ∧
    (solverWith doubled).state.tableau.infeasible =
      (solverWith unscaled).state.tableau.infeasible := by
  obtain ⟨hrows, -, hdumps⟩ := legible_sampled.texts_injective
  have htext : doubled.text sampled = "2*v0 - 3" ∧ unscaled.text sampled = "2*v0 - 3" ∧
      doubled.scale ≠ unscaled.scale := by decide +kernel
  have hdump : (solverWith doubled).dump sampled = (solverWith unscaled).dump sampled := by
    decide +kernel
  obtain ⟨hterms, hconstant⟩ := hrows doubled unscaled (by decide +kernel) (by decide +kernel)
    (htext.1.trans htext.2.1.symm)
  obtain ⟨-, -, -, hqueue, -⟩ := hdumps (solverWith doubled) (solverWith unscaled)
    (by decide +kernel) (by decide +kernel) hdump
  exact ⟨legible_sampled, ⟨htext.1, htext.2.1, htext.2.2, hterms, hconstant⟩, by decide +kernel,
    hqueue⟩

end Legible

end Cassowary
