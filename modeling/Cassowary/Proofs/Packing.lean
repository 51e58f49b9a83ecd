import Mathlib.Algebra.Group.Nat.Defs
import Mathlib.Data.Bool.Basic
import Mathlib.Data.Prod.Lex
import Cassowary.Error

/-!
# Keys and their words

A key is written into one word, and as one text. Both writings lose nothing. The word is told here
once more by what masks and shifts do to it: the mask of the index keeps the 27 bits at the bottom,
the mark is the bit above them, and the shift leaves the code of the kind. As numbers these are a
remainder, a digit and a quotient, so that what holds of the word is arithmetic.

In a text, the digits of the index end where the prime stands or where the text ends, because a
prime is no digit.

## Main definitions

* `Key.joined` — a word put together from three fields
* `Key.kindOf?`, `Key.derivedOf`, `Key.indexOf` — the fields of a word
* `Key.rank` — kind, mark and index, to be compared in this order

## Main results

* `Key.pack_ofIndex`, `Key.unpack?_eq` — packing and unpacking are masks and shifts
* `Key.pack_injective`, `Key.text_injective` — different keys have different words and texts
* `Key.lt_or_lt_of_ne` — two keys are in order one way or the other
* `Key.writing_faithful` — all of this for every key and every word
-/

namespace Cassowary

/-! ## Kinds -/

namespace Kind

theorem ofCode?_code (kind : Kind) : ofCode? kind.code = some kind := by
  cases kind <;> rfl

theorem ofCode?_eq_some_iff {c : BitVec 4} {kind : Kind} :
    ofCode? c = some kind ↔ kind.code = c := by
  constructor
  · exact fun h => of_decide_eq_true (List.find?_some h :)
  · rintro rfl
    exact ofCode?_code kind

/-- The code of a kind is its place among all kinds. -/
theorem getElem?_all {i : Nat} {kind : Kind} : all[i]? = some kind ↔ kind.code.toNat = i := by
  constructor
  · intro h
    have hi : i < 9 := (List.getElem?_eq_some_iff.mp h).1
    have hplaces : ∀ j < 9, ∀ place ∈ all[j]?, place.code.toNat = j := by decide
    exact hplaces i hi kind h
  · rintro rfl
    cases kind <;> rfl

theorem letter_injective : Function.Injective letter := by
  intro a b h
  cases a <;> cases b <;> first | rfl | cases h

end Kind

namespace Key

/-! ## The fields of a word -/

/-- The bits of the index. -/
def indexMask : BitVec 32 := BitVec.ofNat 32 maxIndex

/-- The bit of the mark. -/
def derivedBit : BitVec 32 := 1#32 <<< indexBits

/-- A word put together from three fields. The index is cut to the bits that there are for it. -/
def joined (kind : Kind) (derived : Bool) (index : BitVec 32) : BitVec 32 :=
  (index &&& indexMask) ||| (if derived then derivedBit else 0) |||
    kind.code.setWidth 32 <<< (indexBits + 1)

/-- The kind in the topmost bits of a word, if they are the code of one. -/
def kindOf? (w : BitVec 32) : Option Kind := Kind.all[(w >>> (indexBits + 1)).toNat]?

/-- The mark in a word. -/
def derivedOf (w : BitVec 32) : Bool := w &&& derivedBit != 0

/-- The index in a word. -/
def indexOf (w : BitVec 32) : BitVec 32 := w &&& indexMask

theorem toNat_indexOf (w : BitVec 32) : (indexOf w).toNat = w.toNat % 2 ^ 27 := by
  rw [indexOf, BitVec.toNat_and]
  exact Nat.and_two_pow_sub_one_eq_mod _ 27

theorem derivedOf_eq (w : BitVec 32) : derivedOf w = w.getLsbD 27 := by
  have hand : w &&& derivedBit = if w.getLsbD 27 then derivedBit else 0 := BitVec.and_twoPow w 27
  rw [derivedOf, hand]
  cases w.getLsbD 27 <;> rfl

theorem toNat_derivedOf (w : BitVec 32) : (derivedOf w).toNat = w.toNat / 2 ^ 27 % 2 := by
  rw [derivedOf_eq, BitVec.getLsbD, Nat.toNat_testBit]

theorem toNat_shift (w : BitVec 32) : (w >>> (indexBits + 1)).toNat = w.toNat / 2 ^ 28 := by
  rw [BitVec.toNat_ushiftRight, Nat.shiftRight_eq_div_pow]
  rfl

theorem kindOf?_eq_some_iff {w : BitVec 32} {kind : Kind} :
    kindOf? w = some kind ↔ kind.code.toNat = w.toNat / 2 ^ 28 := by
  rw [kindOf?, Kind.getElem?_all, toNat_shift]

/-- The bits of the three fields are apart, so the word is a sum. -/
theorem toNat_joined (kind : Kind) (derived : Bool) (index : BitVec 32) :
    (joined kind derived index).toNat =
      kind.code.toNat * 2 ^ 28 + derived.toNat * 2 ^ 27 + index.toNat % 2 ^ 27 := by
  have hindex : (index &&& indexMask).toNat = index.toNat % 2 ^ 27 := toNat_indexOf index
  have hmark : (if derived then derivedBit else 0).toNat = derived.toNat <<< 27 := by
    cases derived <;> rfl
  have hcode : (kind.code.setWidth 32 <<< (indexBits + 1)).toNat = kind.code.toNat <<< 28 := by
    cases kind <;> rfl
  have hlow : index.toNat % 2 ^ 27 < 2 ^ 27 := Nat.mod_lt _ (by decide)
  have hhigh : derived.toNat <<< 27 + index.toNat % 2 ^ 27 < 2 ^ 28 := by
    have hderived := Bool.toNat_lt derived
    rw [Nat.shiftLeft_eq]
    omega
  rw [joined, BitVec.toNat_or, BitVec.toNat_or, hindex, hmark, hcode,
    Nat.or_comm (index.toNat % 2 ^ 27), ← Nat.shiftLeft_add_eq_or_of_lt hlow, Nat.or_comm,
    ← Nat.shiftLeft_add_eq_or_of_lt hhigh, Nat.shiftLeft_eq, Nat.shiftLeft_eq]
  omega

/-! ## The word of a key -/

theorem toNat_pack (k : Key) :
    k.pack.toNat = k.kind.code.toNat * 2 ^ 28 + k.derived.toNat * 2 ^ 27 + k.index.toNat := by
  have hindex : k.index.toNat < 2 ^ 27 := k.index.isLt
  have hmark : (BitVec.ofBool k.derived).toNat < 2 ^ 1 := (BitVec.ofBool k.derived).isLt
  have hofBool : (BitVec.ofBool k.derived).toNat = k.derived.toNat := by cases k.derived <;> rfl
  rw [pack, BitVec.toNat_append, BitVec.toNat_append, ← Nat.shiftLeft_add_eq_or_of_lt hindex,
    ← Nat.shiftLeft_add_eq_or_of_lt hmark, Nat.shiftLeft_eq, Nat.shiftLeft_eq]
  omega

/-- Packing a key puts its three fields together. -/
theorem pack_ofIndex (kind : Kind) (derived : Bool) (n : Nat) :
    (ofIndex kind derived n).pack = joined kind derived (BitVec.ofNat 32 n) := by
  apply BitVec.eq_of_toNat_eq
  rw [toNat_pack, toNat_joined, BitVec.toNat_ofNat]
  simp only [ofIndex, BitVec.toNat_ofNat]
  omega

theorem kindOf?_pack (k : Key) : kindOf? k.pack = some k.kind := by
  have hindex : k.index.toNat < 2 ^ 27 := k.index.isLt
  have hmark := Bool.toNat_lt k.derived
  rw [kindOf?_eq_some_iff, toNat_pack]
  omega

theorem derivedOf_pack (k : Key) : derivedOf k.pack = k.derived := by
  rw [derivedOf_eq, pack, BitVec.getLsbD_append, if_neg (Nat.lt_irrefl 27), BitVec.getLsbD_append,
    if_pos (by decide)]
  cases k.derived <;> rfl

theorem toNat_indexOf_pack (k : Key) : (indexOf k.pack).toNat = k.index.toNat := by
  have hindex : k.index.toNat < 2 ^ 27 := k.index.isLt
  rw [toNat_indexOf, toNat_pack]
  omega

/-- Unpacking a word takes its three fields apart. -/
theorem unpack?_eq (w : BitVec 32) :
    unpack? w = (kindOf? w).map fun kind => ofIndex kind (derivedOf w) (indexOf w).toNat := by
  have hkind : Kind.ofCode? (w.extractLsb' 28 4) = kindOf? w := by
    refine Option.ext fun kind => ?_
    have hword : w.toNat < 2 ^ 32 := w.isLt
    rw [Kind.ofCode?_eq_some_iff, kindOf?_eq_some_iff, ← BitVec.toNat_inj,
      BitVec.extractLsb'_toNat, Nat.shiftRight_eq_div_pow]
    omega
  have hindex : w.extractLsb' 0 27 = BitVec.ofNat 27 (indexOf w).toNat := by
    apply BitVec.eq_of_toNat_eq
    rw [BitVec.extractLsb'_toNat, BitVec.toNat_ofNat, toNat_indexOf, Nat.shiftRight_zero,
      Nat.mod_mod]
  rw [unpack?, hkind]
  simp only [hindex, ofIndex, derivedOf_eq]

theorem unpack?_pack (k : Key) : unpack? k.pack = some k := by
  rw [unpack?_eq, kindOf?_pack, derivedOf_pack, toNat_indexOf_pack, Option.map_some, ofIndex,
    BitVec.ofNat_toNat, BitVec.setWidth_eq]

/-- A word whose topmost bits are the code of a kind is put together from its own fields. -/
theorem joined_fields {w : BitVec 32} {kind : Kind} (h : kindOf? w = some kind) :
    joined kind (derivedOf w) (indexOf w) = w := by
  have hcode := kindOf?_eq_some_iff.mp h
  apply BitVec.eq_of_toNat_eq
  rw [toNat_joined, toNat_derivedOf, toNat_indexOf]
  omega

/-- Different keys have different words. -/
theorem pack_injective : Function.Injective pack := by
  intro a b h
  rw [← Option.some_inj, ← unpack?_pack a, ← unpack?_pack b, h]

/-! ## The order of keys -/

/-- Two keys are in order one way or the other. -/
theorem lt_or_lt_of_ne {a b : Key} (h : a ≠ b) : a < b ∨ b < a := by
  have hne : a.pack.toNat ≠ b.pack.toNat :=
    fun heq => h (pack_injective (BitVec.eq_of_toNat_eq heq))
  exact Nat.lt_or_gt_of_ne hne

theorem lt_asymm {a b : Key} (h : a < b) : ¬ b < a := Nat.lt_asymm h

/-- What keys are compared by: the kind first, then the mark, then the index. -/
def rank (k : Key) : Nat ×ₗ Bool ×ₗ Nat :=
  toLex (k.kind.code.toNat, toLex (k.derived, k.index.toNat))

theorem lt_iff_rank_lt (a b : Key) : a < b ↔ a.rank < b.rank := by
  have hindexA : a.index.toNat < 2 ^ 27 := a.index.isLt
  have hindexB : b.index.toNat < 2 ^ 27 := b.index.isLt
  have hmarkA := Bool.toNat_lt a.derived
  have hmarkB := Bool.toNat_lt b.derived
  have hlt : a.derived < b.derived ↔ a.derived.toNat < b.derived.toNat := by
    cases a.derived <;> cases b.derived <;> decide
  have heq : a.derived = b.derived ↔ a.derived.toNat = b.derived.toNat := by
    cases a.derived <;> cases b.derived <;> decide
  change a.pack.toNat < b.pack.toNat ↔ _
  rw [toNat_pack, toNat_pack, rank, rank, Prod.Lex.toLex_lt_toLex, Prod.Lex.toLex_lt_toLex]
  simp only [hlt, heq]
  omega

/-! ## The text of a key -/

theorem toList_text (k : Key) : k.text.toList =
    k.kind.letter :: (Nat.toDigits 10 k.index.toNat ++ if k.derived then ['\x27'] else []) := by
  have hprime : (if k.derived then "\x27" else "").toList = if k.derived then ['\x27'] else [] := by
    cases k.derived <;> rfl
  rw [text, String.toList_append, String.toList_append, hprime, String.toList_singleton,
    Nat.toString_eq_repr, Nat.toList_repr, List.append_assoc, List.singleton_append]

/-- Different keys have different texts. -/
theorem text_injective : Function.Injective text := by
  intro a b h
  have hlist := congrArg String.toList h
  rw [toList_text, toList_text, List.cons.injEq] at hlist
  obtain ⟨hletter, hrest⟩ := hlist
  -- The digits are all there is before the first character that is no digit
  have hleading (k : Key) : (Nat.toDigits 10 k.index.toNat ++
      if k.derived then ['\x27'] else []).takeWhile Char.isDigit =
        Nat.toDigits 10 k.index.toNat := by
    rw [List.takeWhile_append_of_pos fun c hc =>
      Nat.isDigit_of_mem_toDigits (by decide) (by decide) hc]
    cases k.derived <;> simp
  have hdigits := congrArg (List.takeWhile Char.isDigit) hrest
  rw [hleading, hleading] at hdigits
  rw [hdigits] at hrest
  have hprime := List.append_cancel_left hrest
  have hkind := Kind.letter_injective hletter
  have hderived : a.derived = b.derived := by
    cases hda : a.derived <;> cases hdb : b.derived <;> simp_all
  have hindex : a.index.toNat = b.index.toNat := by
    rw [← Nat.ofDigitChars_ten_toDigits (n := a.index.toNat), hdigits,
      Nat.ofDigitChars_ten_toDigits]
  obtain ⟨kind, derived, index⟩ := a
  obtain ⟨kind', derived', index'⟩ := b
  exact Key.mk.injEq .. ▸ ⟨hkind, hderived, BitVec.eq_of_toNat_eq hindex⟩

/-! ## Allocation -/

theorem allocate_of_le (kind : Kind) {derived : Bool} {n : Nat} (h : n ≤ maxIndex) :
    allocate kind derived n = .ok (ofIndex kind derived n) := by
  rw [allocate, ofIndex?, if_pos h]

theorem allocate_of_lt (kind : Kind) {derived : Bool} {n : Nat} (h : maxIndex < n) :
    allocate kind derived n = .error (.indexSpaceExhausted n) := by
  rw [allocate, ofIndex?, if_neg (Nat.not_le.mpr h)]

theorem toNat_index_ofIndex (kind : Kind) (derived : Bool) {n : Nat} (h : n ≤ maxIndex) :
    (ofIndex kind derived n).index.toNat = n := by
  have hlt : n < 2 ^ 27 := Nat.lt_succ_of_le h
  rw [ofIndex, BitVec.toNat_ofNat, Nat.mod_eq_of_lt hlt]

theorem toNat_indexOf_le (w : BitVec 32) : (indexOf w).toNat ≤ maxIndex := by
  have hlt : w.toNat % 2 ^ 27 < 2 ^ 27 := Nat.mod_lt _ (by decide)
  exact Nat.le_of_lt_succ ((toNat_indexOf w).symm ▸ hlt)

/-- Up to the largest index, a kind, a mark and an index have a key, whose word is put together from
the three and gives the three back. Above it there is an error that names the index. A word whose
topmost bits are the code of a kind is put together from its own three fields and is the word of the
key that has them, and no other word is the word of a key. Words are in the order of kind, mark and
index. Different keys have different texts. -/
theorem writing_faithful :
    (∀ (kind : Kind) (derived : Bool) (n : Nat),
      (n ≤ maxIndex → ∃ k, allocate kind derived n = .ok k ∧
        (k.kind = kind ∧ k.derived = derived ∧ k.index.toNat = n) ∧
        k.pack = joined kind derived (BitVec.ofNat 32 n) ∧
        kindOf? k.pack = some kind ∧ derivedOf k.pack = derived ∧ (indexOf k.pack).toNat = n) ∧
      (maxIndex < n → allocate kind derived n = .error (.indexSpaceExhausted n))) ∧
    (∀ (w : BitVec 32) (kind : Kind), kindOf? w = some kind →
      joined kind (derivedOf w) (indexOf w) = w ∧
      ∃ k, allocate kind (derivedOf w) (indexOf w).toNat = .ok k ∧ unpack? w = some k ∧
        k.pack = w) ∧
    (∀ w : BitVec 32, kindOf? w = none → unpack? w = none ∧ ∀ k : Key, k.pack ≠ w) ∧
    (∀ a b : Key, (a.pack < b.pack ↔ a.rank < b.rank) ∧ (a.pack = b.pack ↔ a.rank = b.rank)) ∧
    ∀ a b : Key, a ≠ b → a.text ≠ b.text := by
  refine ⟨fun kind derived n => ⟨fun h => ?_, allocate_of_lt kind⟩, fun w kind h => ?_,
    fun w h => ⟨?_, ?_⟩, fun a b => ⟨lt_iff_rank_lt a b, ?_⟩, fun a b => text_injective.ne⟩
  · have hindex := toNat_index_ofIndex kind derived h
    exact ⟨ofIndex kind derived n, allocate_of_le kind h, ⟨rfl, rfl, hindex⟩,
      pack_ofIndex kind derived n, kindOf?_pack _, derivedOf_pack _,
      (toNat_indexOf_pack _).trans hindex⟩
  · have hjoined := joined_fields h
    refine ⟨hjoined, ofIndex kind (derivedOf w) (indexOf w).toNat,
      allocate_of_le _ (toNat_indexOf_le w), ?_, ?_⟩
    · rw [unpack?_eq, h, Option.map_some]
    · rw [pack_ofIndex, BitVec.ofNat_toNat, BitVec.setWidth_eq, hjoined]
  · rw [unpack?_eq, h, Option.map_none]
  · rintro k rfl
    rw [kindOf?_pack] at h
    cases h
  · constructor
    · intro h
      rw [pack_injective h]
    · intro h
      have hrank (c d : Key) (h : c.rank = d.rank) : ¬ c < d := by
        rw [lt_iff_rank_lt, h]
        exact lt_irrefl _
      by_contra hne
      rcases lt_or_lt_of_ne (fun heq => hne (congrArg pack heq)) with hlt | hlt
      · exact hrank a b h hlt
      · exact hrank b a h.symm hlt

/-- At the largest index of the last kind, with the mark: the word is the last one that is the word
of a key. -/
theorem writing_faithful_maxIndex :
    maxIndex ≤ maxIndex ∧ maxIndex < maxIndex + 1 ∧ kindOf? 0x8fffffff = some .artificial ∧
    kindOf? 0x90000000 = none ∧
    (∃ k, allocate .artificial true maxIndex = .ok k ∧ k.pack = 0x8fffffff) ∧
    allocate .artificial true (maxIndex + 1) = .error (.indexSpaceExhausted 134217728) ∧
    joined .artificial (derivedOf 0x8fffffff) (indexOf 0x8fffffff) = 0x8fffffff ∧
    unpack? 0x90000000 = none ∧
    (ofIndex .artificial true 11).text ≠ (ofIndex .artificial true 1).text := by
  obtain ⟨hfields, hwords, hnone, -, htexts⟩ := writing_faithful
  have hkind : kindOf? 0x8fffffff = some .artificial := by decide
  have hnokind : kindOf? 0x90000000 = none := by decide
  obtain ⟨k, hk, -, hpack, -⟩ := (hfields .artificial true maxIndex).1 le_rfl
  refine ⟨le_rfl, Nat.lt_succ_self _, hkind, hnokind, ⟨k, hk, hpack.trans (by decide)⟩,
    (hfields .artificial true (maxIndex + 1)).2 (Nat.lt_succ_self _), (hwords _ _ hkind).1,
    (hnone _ hnokind).1, htexts _ _ (by decide)⟩

end Key

end Cassowary
