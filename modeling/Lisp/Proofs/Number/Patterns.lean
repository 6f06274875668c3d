import Lisp.Number.Binary64
import Mathlib

/-!
# Bit patterns of doubles

A double keeps the sign and the magnitude that it is made from, unless the
magnitude is beyond infinity: `toBits_ofPattern`.  A pattern is the three fields
of the format side by side; they are taken apart into a number and put together
again, with one lemma for each kind of number.

Hence a number is the same as the one made from its own sign and magnitude
(`same_ofPattern`), which is all that reading a number back has to get right.
-/

namespace Lisp.Number

open Float.Model (Format)
open Float.Model.UnpackedFloat

/-- The three fields of a double side by side. -/
abbrev fields (sign : Sign) (exponent : BitVec 11) (fraction : BitVec 52) : BitVec 64 :=
  packComponents Format.binary64 sign exponent fraction

/-- The number that the fields make. -/
theorem toNat_fields (sign : Sign) (exponent : BitVec 11) (fraction : BitVec 52) :
    (fields sign exponent fraction).toNat =
      (sign.toBitVec.toNat * 2 ^ 11 + exponent.toNat) * 2 ^ 52 + fraction.toNat := by
  unfold fields packComponents
  rw [BitVec.toNat_append, BitVec.toNat_append, ← Nat.shiftLeft_add_eq_or_of_lt fraction.isLt,
    ← Nat.shiftLeft_add_eq_or_of_lt exponent.isLt, Nat.shiftLeft_eq, Nat.shiftLeft_eq]

/-- The sign of a double is its first field. -/
theorem unpackSign_fields (sign : Sign) (exponent : BitVec 11) (fraction : BitVec 52) :
    Sign.ofBitVec (@unpackSign Format.binary64 (fields sign exponent fraction)) = sign := by
  have hsign : @unpackSign Format.binary64 (fields sign exponent fraction) = sign.toBitVec := by
    apply BitVec.eq_of_toNat_eq
    have hexponent := exponent.isLt
    have hfraction := fraction.isLt
    have hbit := sign.toBitVec.isLt
    have hall := toNat_fields sign exponent fraction
    unfold unpackSign
    rw [BitVec.toNat_cast, BitVec.extractLsb_toNat, hall, Nat.shiftRight_eq_div_pow]
    show (_ / 2 ^ 63) % 2 ^ 1 = _
    omega
  rw [hsign]
  cases sign <;> rfl

/-- A mantissa with its implicit bit. -/
theorem toNat_implicit (fraction : BitVec 52) :
    (1#1 ++ fraction).toNat = 2 ^ 52 + fraction.toNat := by
  rw [BitVec.toNat_append, ← Nat.shiftLeft_add_eq_or_of_lt fraction.isLt, Nat.shiftLeft_eq]
  rfl

/-- The fields of a number below the normal range. -/
theorem pack_subnormal (sign : Sign) (fraction : BitVec 52) (hpos : 0 < fraction.toNat) :
    pack Format.binary64 (.finite sign fraction.toNat (-1074) hpos) =
      fields sign 0#11 fraction := by
  have hlt := fraction.isLt
  have hshort : fraction.toNat.log2 < 52 := (Nat.log2_lt (by omega)).mpr hlt
  have hleast : ¬ fraction.toNat.log2 + 1 = Format.binary64.mantissaBits := by
    show ¬ fraction.toNat.log2 + 1 = 53
    omega
  have hkept : BitVec.ofNat 52 fraction.toNat = fraction := by
    rw [BitVec.ofNat_toNat, BitVec.setWidth_eq]
  unfold pack
  rw [if_neg (by decide), if_neg hleast]
  exact congrArg (fields sign 0#11) hkept

/-- The fields of a normal number. -/
theorem pack_normal (sign : Sign) (exponent : BitVec 11) (fraction : BitVec 52)
    (hmax : exponent.toNat ≠ 2047) (hpos : 0 < (1#1 ++ fraction).toNat) :
    pack Format.binary64 (.finite sign (1#1 ++ fraction).toNat (exponent.toNat - 1075) hpos) =
      fields sign exponent fraction := by
  have hexponent := exponent.isLt
  have hfraction := fraction.isLt
  have hmantissa := toNat_implicit fraction
  have hlog : (1#1 ++ fraction).toNat.log2 = 52 := by
    rw [hmantissa, Nat.log2_eq_iff (by omega)]
    omega
  have hbiased : ((exponent.toNat : Int) - 1075 + Format.binary64.exponentBias +
      Format.binary64.mantissaBitsWithoutImplicit).toNat = exponent.toNat := by
    show ((exponent.toNat : Int) - 1075 + (1023 : Nat) + (52 : Nat)).toNat = exponent.toNat
    omega
  unfold pack
  dsimp only
  rw [hbiased, hlog, if_neg (show ¬ 2 ^ 11 ≤ exponent.toNat + 1 by omega),
    if_pos (show 52 + 1 = Format.binary64.mantissaBits from rfl)]
  have hkept : BitVec.ofNat 52 (1#1 ++ fraction).toNat = fraction := by
    apply BitVec.eq_of_toNat_eq
    rw [BitVec.toNat_ofNat, hmantissa]
    omega
  have hsame : BitVec.ofNat 11 exponent.toNat = exponent := by
    rw [BitVec.ofNat_toNat, BitVec.setWidth_eq]
  exact congr (congrArg (fields sign) hsame) hkept

/-- A double is put together from the fields that it is taken apart into, unless
it is not a number. -/
theorem pack_unpack_fields (sign : Sign) (exponent : BitVec 11) (fraction : BitVec 52)
    (h : exponent = -1#11 → fraction = 0#52) :
    pack Format.binary64 (unpack Format.binary64 (fields sign exponent fraction)) =
      fields sign exponent fraction := by
  have hexponent := exponent.isLt
  have hfraction := fraction.isLt
  have hsign := unpackSign_fields sign exponent fraction
  unfold unpack
  dsimp only
  rw [hsign]
  simp only [unpackMantissa_packComponents, unpackExponent_packComponents]
  by_cases hmax : exponent = -1#11
  · have hzero := h hmax
    rw [if_pos hmax, if_pos hzero]
    rw [hmax, hzero]
    rfl
  · rw [if_neg hmax]
    by_cases hleast : exponent = 0#11
    · rw [if_pos hleast]
      by_cases hzero : fraction = 0#52
      · rw [dif_pos hzero, hleast, hzero]
        rfl
      · rw [dif_neg hzero, hleast]
        exact pack_subnormal sign fraction _
    · rw [if_neg hleast]
      have hfinite : exponent.toNat ≠ 2047 := fun heq => hmax (BitVec.eq_of_toNat_eq heq)
      exact pack_normal sign exponent fraction hfinite _

/-- The sign that a flag stands for. -/
def signOf (negative : Bool) : Sign :=
  if negative then .negative else .positive

/-- The bits of a sign and a magnitude are the fields that they fall into. -/
theorem toBitVec_ofNat_pattern (negative : Bool) {pattern : Nat} (h : pattern < signWeight) :
    (UInt64.ofNat (if negative then signWeight + pattern else pattern)).toBitVec =
      fields (signOf negative) (BitVec.ofNat 11 (pattern / fractionWeight))
        (BitVec.ofNat 52 (pattern % fractionWeight)) := by
  apply BitVec.eq_of_toNat_eq
  rw [toNat_fields, BitVec.toNat_ofNat, BitVec.toNat_ofNat]
  show (if negative then signWeight + pattern else pattern) % 2 ^ 64 = _
  unfold signWeight at h
  unfold signWeight fractionWeight
  cases negative with
  | true =>
      show (_ + pattern) % 2 ^ 64 = (1 * 2 ^ 11 + _) * 2 ^ 52 + _
      omega
  | false =>
      show pattern % 2 ^ 64 = (0 * 2 ^ 11 + _) * 2 ^ 52 + _
      omega

/-- A double keeps the bits that it is made from, up to infinity. -/
theorem toBits_ofPattern (negative : Bool) {pattern : Nat} (h : pattern ≤ infinityPattern) :
    (ofPattern negative pattern).toBits =
      UInt64.ofNat (if negative then signWeight + pattern else pattern) := by
  have hsmall : pattern < signWeight := Nat.lt_of_le_of_lt h (by decide)
  have hnumber : BitVec.ofNat 11 (pattern / fractionWeight) = -1#11 →
      BitVec.ofNat 52 (pattern % fractionWeight) = 0#52 := by
    intro hmax
    have hexponent := congrArg BitVec.toNat hmax
    rw [BitVec.toNat_ofNat] at hexponent
    apply BitVec.eq_of_toNat_eq
    rw [BitVec.toNat_ofNat]
    unfold infinityPattern at h
    unfold fractionWeight at hexponent
    show pattern % 0x10000000000000 % 2 ^ 52 = 0
    have hvalue : pattern / 0x10000000000000 % 2 ^ 11 = 2047 := hexponent
    omega
  have hfields := toBitVec_ofNat_pattern negative hsmall
  apply UInt64.toBitVec_inj.mp
  show pack Format.binary64 (unpack Format.binary64 _) = _
  rw [hfields]
  exact pack_unpack_fields _ _ _ hnumber

/-- Doubles with the same bits are the same number. -/
theorem same_of_toBits_eq {x y : Float} (h : x.toBits = y.toBits) : same x y = true := by
  unfold same key magnitude
  rw [h]
  exact beq_self_eq_true _

/-- A number is the same as the one made from its own sign and magnitude. -/
theorem same_ofPattern (x : Float) (h : magnitude x ≤ infinityPattern) :
    same (ofPattern (isNegative x) (magnitude x)) x = true := by
  apply same_of_toBits_eq
  rw [toBits_ofPattern _ h]
  have hlt := x.toBits.toNat_lt
  have hbits : (if isNegative x then signWeight + magnitude x else magnitude x) =
      x.toBits.toNat := by
    unfold isNegative magnitude
    by_cases hsign : signWeight ≤ x.toBits.toNat
    · rw [if_pos (decide_eq_true hsign)]
      unfold signWeight at hsign ⊢
      omega
    · rw [if_neg (by simpa using hsign)]
      unfold signWeight at hsign ⊢
      omega
  rw [hbits]
  exact UInt64.ofNat_toNat

/-- Both zeros are the zero without a sign. -/
theorem same_zero (x : Float) (h : magnitude x = 0) : same (ofPattern false 0) x = true := by
  have hzero : magnitude (ofPattern false 0) = 0 := by
    unfold magnitude
    rw [toBits_ofPattern false (Nat.zero_le _)]
    rfl
  unfold same key
  rw [if_pos hzero, if_pos h]
  rfl

/-- All values beyond infinity are one. -/
theorem same_notANumber (x : Float) (h : infinityPattern < magnitude x) :
    same (Float.ofBits 0x7FF8000000000000) x = true := by
  have hpos : ¬ magnitude x = 0 := by omega
  have hkey : key x = 0x7FF8000000000000 := by
    unfold key
    rw [if_neg hpos, if_pos h]
  unfold same
  rw [hkey]
  decide

end Lisp.Number
