import Mathlib
import Cassowary.Scalar

/-!
# Negation of binary floating point

A floating-point number is a sign, an exponent and a mantissa. Negation turns the sign and leaves
the other two alone. So it is its own inverse, and it neither makes a NaN of a number nor a number
of a NaN.

## Main results

* `Scalar.pack_unpack` — a word can be restored from the number that it stands for
* `Scalar.unpack_neg` — what a negated number stands for
* `Scalar.neg_neg_float`, `Scalar.isNaN_neg_float` — what follows for the numbers themselves
-/

namespace Cassowary

namespace Scalar

open Float.Model Float.Model.UnpackedFloat

/-! ## Fields of a word -/

section Fields

variable {format : Format} {s : Sign} {exponent : BitVec format.exponentBits}
  {mantissa : BitVec format.mantissaBitsWithoutImplicit}

theorem ofBitVec_toBitVec (s : Sign) : Sign.ofBitVec s.toBitVec = s := by
  cases s <;> rfl

theorem toBitVec_ofBitVec (bit : BitVec 1) : (Sign.ofBitVec bit).toBitVec = bit := by
  unfold Sign.ofBitVec
  split
  · next hzero => exact hzero.symm
  · next hne => exact ((BitVec.eq_zero_or_eq_one bit).resolve_left hne).symm

theorem unpackSign_packComponents :
    unpackSign (packComponents format s exponent mantissa) = s.toBitVec := by
  ext i hi
  have hzero : i = 0 := by omega
  subst hzero
  simp [unpackSign, packComponents, BitVec.getLsbD_append, BitVec.getElem_append]

/-- A word is put together from its own fields. -/
theorem packComponents_fields (b : BitVec Format.binary64.numBits) :
    packComponents .binary64 (.ofBitVec (unpackSign b)) (unpackExponent b) (unpackMantissa b) =
      b := by
  rw [packComponents, toBitVec_ofBitVec, unpackSign, unpackExponent, unpackMantissa]
  ext i hi
  simp only [BitVec.extractLsb]
  grind

/-- With the other sign, a word stands for the negated number. -/
theorem unpack_packComponents_neg :
    UnpackedFloat.unpack format (packComponents format (-s) exponent mantissa) =
      (UnpackedFloat.unpack format (packComponents format s exponent mantissa)).neg := by
  unfold UnpackedFloat.unpack
  simp only [unpackExponent_packComponents, unpackMantissa_packComponents,
    unpackSign_packComponents, ofBitVec_toBitVec]
  split
  · split <;> rfl
  · split
    · split <;> rfl
    · rfl

end Fields

/-! ## Words and numbers -/

/-- The implicit bit of a mantissa is left out, and the exponent tells whether there is one. -/
theorem pack_finite {s : Sign} {m : Nat} {e : Int} (hm : 0 < m) (hlt : m < 2 ^ 53)
    (he : (e + 1023 + 52).toNat + 1 < 2 ^ 11) :
    UnpackedFloat.pack .binary64 (.finite s m e hm) = packComponents .binary64 s
      (if 2 ^ 52 ≤ m then .ofNat _ (e + 1023 + 52).toNat else 0#_) (.ofNat _ m) := by
  have hlog : m.log2 + 1 = Format.binary64.mantissaBits ↔ 2 ^ 52 ≤ m := by
    have hupper : m.log2 < 53 := (Nat.log2_lt (Nat.ne_of_gt hm)).mpr hlt
    have hbits : Format.binary64.mantissaBits = 53 := rfl
    rw [← Nat.le_log2 (Nat.ne_of_gt hm)]
    omega
  have hbias : (e + Format.binary64.exponentBias + (52 : Nat)).toNat = (e + 1023 + 52).toNat := rfl
  unfold UnpackedFloat.pack
  simp only [hbias, hlog]
  rw [if_neg (Nat.not_le.mpr he)]
  split <;> rfl

/-- A word can be restored from the number that it stands for. -/
theorem pack_unpack {b : BitVec Format.binary64.numBits} (hb : Format.binary64.Valid b) :
    UnpackedFloat.pack .binary64 (UnpackedFloat.unpack .binary64 b) = b := by
  have hfields := packComponents_fields b
  have hmantissa : (unpackMantissa b).toNat < 2 ^ 52 := (unpackMantissa b).isLt
  have hexponent : (unpackExponent b).toNat < 2 ^ 11 := (unpackExponent b).isLt
  unfold UnpackedFloat.unpack
  dsimp only
  split
  · next hones =>
    split
    · next hzero => rwa [hones, hzero] at hfields
    · next hne => exact (hb.eq_packedNaN hones hne).symm
  · next hones =>
    split
    · next hzero =>
      split
      · next hmzero => rwa [hzero, hmzero] at hfields
      · next hmne =>
        have hbias : Format.binary64.exponentBias = 1023 := rfl
        have hzero' : (unpackExponent b).toNat = 0 := congrArg BitVec.toNat hzero
        rw [pack_finite _ (by omega) (by omega), if_neg (by omega), BitVec.ofNat_toNat,
          BitVec.setWidth_eq, ← hzero]
        exact hfields
    · next hzero =>
      have hbias : Format.binary64.exponentBias = 1023 := rfl
      have happend : (1#1 ++ unpackMantissa b).toNat = 2 ^ 52 + (unpackMantissa b).toNat := by
        rw [BitVec.toNat_append, ← Nat.shiftLeft_add_eq_or_of_lt (unpackMantissa b).isLt]
        rfl
      have hne : (unpackExponent b).toNat ≠ 2 ^ 11 - 1 := fun heq =>
        hones (BitVec.eq_of_toNat_eq heq)
      have hkept : ((unpackExponent b).toNat - ((1023 : Nat) + (52 : Nat) : Int) + 1023 + 52).toNat =
          (unpackExponent b).toNat := by omega
      have hcut : BitVec.ofNat 52 (1#1 ++ unpackMantissa b).toNat = unpackMantissa b := by
        apply BitVec.eq_of_toNat_eq
        rw [BitVec.toNat_ofNat, happend]
        omega
      rw [hbias, pack_finite _ (by omega) (by omega), if_pos (by omega), hkept, hcut,
        BitVec.ofNat_toNat, BitVec.setWidth_eq]
      exact hfields

/-- A word with the opposite sign stands for the negated number, and negating the number leads to
that word. -/
theorem unpack_pack_neg (b : BitVec Format.binary64.numBits) :
    UnpackedFloat.unpack .binary64
        (UnpackedFloat.pack .binary64 (UnpackedFloat.unpack .binary64 b).neg) =
      (UnpackedFloat.unpack .binary64 b).neg := by
  by_cases hnan : UnpackedFloat.unpack .binary64 b = .notANumber
  · rw [hnan]
    rfl
  · have hneg : UnpackedFloat.unpack .binary64 (packComponents .binary64
        (-.ofBitVec (unpackSign b)) (unpackExponent b) (unpackMantissa b)) =
          (UnpackedFloat.unpack .binary64 b).neg := by
      rw [unpack_packComponents_neg, packComponents_fields]
    -- Only the word of a NaN could be invalid
    rw [← hneg, pack_unpack]
    refine ⟨fun hones hne => absurd ?_ hnan⟩
    rw [unpackExponent_packComponents] at hones
    rw [unpackMantissa_packComponents] at hne
    unfold UnpackedFloat.unpack
    dsimp only
    rw [if_pos hones, if_neg hne]

/-! ## Numbers -/

theorem pack_unpack_model (x : Float.Model) : Float.Model.pack x.unpack = x := by
  obtain ⟨bits, hvalid⟩ := x
  have hbits := pack_unpack hvalid
  unfold Float.Model.pack Float.Model.unpack
  simp only [hbits]

/-- A negated number is the number with the other sign. -/
theorem unpack_neg (x : Float.Model) : (-x).unpack = x.unpack.neg :=
  unpack_pack_neg x.toBits.toBitVec

theorem neg_neg_unpacked (u : UnpackedFloat) : u.neg.neg = u := by
  cases u with
  | notANumber => rfl
  | infinity s | zero s | finite s => cases s <;> rfl

/-- Negation is its own inverse. -/
theorem neg_neg_float (x : Float) : -(-x) = x := by
  have hmodel : -(-x.toModel) = x.toModel := by
    rw [← pack_unpack_model (-(-x.toModel)), unpack_neg, unpack_neg, neg_neg_unpacked,
      pack_unpack_model]
  exact congrArg Float.ofModel hmodel

theorem neg_injective_float {x y : Float} (h : -x = -y) : x = y := by
  rw [← neg_neg_float x, h, neg_neg_float]

/-- Every number but a NaN is equal to itself. -/
theorem isNaN_float (x : Float) : isNaN x = x.toModel.unpack.isNaN := by
  change (!(x.toModel.unpack.beq x.toModel.unpack)) = _
  have hself : ∀ u : UnpackedFloat, u.beq u = !u.isNaN := by
    rintro (s | _ | s | ⟨s, m, e, _⟩)
    · cases s <;> rfl
    · rfl
    · rfl
    · cases s <;> simp [UnpackedFloat.beq, UnpackedFloat.compare, UnpackedFloat.isNaN]
  rw [hself, Bool.not_not]

theorem isNaN_neg_float (x : Float) : isNaN (-x) = isNaN x := by
  have hneg : (-x).toModel.unpack = x.toModel.unpack.neg := unpack_neg x.toModel
  rw [isNaN_float, isNaN_float, hneg]
  cases x.toModel.unpack <;> rfl

end Scalar

end Cassowary
