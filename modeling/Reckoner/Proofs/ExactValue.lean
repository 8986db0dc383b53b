import Mathlib
import Reckoner.Binary64.Basic

/-!
Which number a double is. Its sign, its exponent and its fraction are read off its bits as the
logical model of doubles reads them (`unpack_eq`), so that a finite double stands for one rational
number, which is its significand times a power of two. The questions whether this number is whole
and whether it is odd are settled on whole numbers alone, and exactly, for every double of either
sign.
-/

namespace Reckoner

open Float.Model (UnpackedFloat)
open Float.Model.UnpackedFloat (Sign)

namespace Binary64

/-! ### Fields -/

def signOf (negative : Bool) : Sign := if negative then .negative else .positive

theorem signOf_eq_negative_iff (bit : Bool) : signOf bit = .negative ↔ bit = true := by
  cases bit <;> simp [signOf]

def sign (x : Float) : Sign := signOf (signBit x)

abbrev fractionBits (x : Float) := @UnpackedFloat.unpackMantissa .binary64 x.toModel.toBits.toBitVec

abbrev exponentBits (x : Float) := @UnpackedFloat.unpackExponent .binary64 x.toModel.toBits.toBitVec

abbrev signBits (x : Float) := @UnpackedFloat.unpackSign .binary64 x.toModel.toBits.toBitVec

theorem toNat_fractionBits (x : Float) : (fractionBits x).toNat = fraction x := by
  rw [fractionBits, UnpackedFloat.unpackMantissa, BitVec.toNat_cast, BitVec.extractLsb,
    BitVec.extractLsb', BitVec.toNat_ofNat]
  rfl

theorem toNat_exponentBits (x : Float) : (exponentBits x).toNat = biased x := by
  rw [exponentBits, UnpackedFloat.unpackExponent, BitVec.toNat_cast, BitVec.extractLsb,
    BitVec.extractLsb', BitVec.toNat_ofNat, Nat.shiftRight_eq_div_pow]
  rfl

theorem ofBitVec_signBits (x : Float) : Sign.ofBitVec (signBits x) = sign x := by
  have hlt : x.toBits.toNat < 2 ^ 64 := x.toBits.toBitVec.isLt
  have hsign : (signBits x).toNat = x.toBits.toNat / Nat.pow 2 63 := by
    rw [signBits, UnpackedFloat.unpackSign, BitVec.toNat_cast, BitVec.extractLsb,
      BitVec.extractLsb', BitVec.toNat_ofNat, Nat.shiftRight_eq_div_pow]
    exact Nat.mod_eq_of_lt (Nat.div_lt_of_lt_mul hlt)
  rw [Sign.ofBitVec, sign, signBit, ← hsign]
  generalize signBits x = b
  rcases BitVec.eq_zero_or_eq_one b with rfl | rfl <;> rfl

/-- The leading bit and the fraction of a normal double. -/
theorem toNat_one_append (x : Float) : (1#1 ++ fractionBits x).toNat = 2 ^ 52 + fraction x := by
  rw [BitVec.toNat_append, ← Nat.shiftLeft_add_eq_or_of_lt (BitVec.isLt _), toNat_fractionBits]
  rfl

theorem fractionBits_eq_zero_iff (x : Float) : fractionBits x = 0#_ ↔ fraction x = 0 := by
  rw [← toNat_fractionBits, ← BitVec.toNat_inj]
  rfl

theorem exponentBits_eq_zero_iff (x : Float) : exponentBits x = 0#_ ↔ biased x = 0 := by
  rw [← toNat_exponentBits, ← BitVec.toNat_inj]
  rfl

theorem exponentBits_eq_ones_iff (x : Float) : exponentBits x = -1#_ ↔ biased x = 2047 := by
  rw [← toNat_exponentBits, ← BitVec.toNat_inj]
  rfl

theorem finite_congr {s : Sign} {m m' : Nat} {e e' : Int} (hm : m = m') (he : e = e') (h : 0 < m)
    (h' : 0 < m') : UnpackedFloat.finite s m e h = .finite s m' e' h' := by
  subst hm he
  rfl

/-- A double is what its fields say. -/
theorem unpack_eq (x : Float) :
    x.toModel.unpack =
      if biased x = 2047 then
        if fraction x = 0 then .infinity (sign x) else .notANumber
      else if h : significand x = 0 then .zero (sign x)
      else .finite (sign x) (significand x) (scale x) (Nat.pos_of_ne_zero h) := by
  have hbias : ((Float.Model.Format.binary64.exponentBias : Nat) : Int) = 1023 := rfl
  have hbits : ((Float.Model.Format.binary64.mantissaBitsWithoutImplicit : Nat) : Int) = 52 := rfl
  rw [Float.Model.unpack, UnpackedFloat.unpack, ofBitVec_signBits]
  split
  · rename_i hones
    rw [if_pos ((exponentBits_eq_ones_iff x).1 hones)]
    exact if_congr (fractionBits_eq_zero_iff x) rfl rfl
  · rename_i hones
    rw [if_neg (mt (exponentBits_eq_ones_iff x).2 hones)]
    split
    · rename_i hlow
      have hlow := (exponentBits_eq_zero_iff x).1 hlow
      have hsignificand : significand x = fraction x := if_pos hlow
      split
      · rename_i hnull
        rw [dif_pos (hsignificand.trans ((fractionBits_eq_zero_iff x).1 hnull))]
      · rename_i hnull
        have hnull := mt (fractionBits_eq_zero_iff x).2 hnull
        rw [dif_neg (hsignificand ▸ hnull)]
        refine finite_congr ((toNat_fractionBits x).trans hsignificand.symm) ?_ _ _
        rw [toNat_exponentBits, hlow, hbias, hbits, scale, if_pos hlow]
        rfl
    · rename_i hlow
      have hlow := mt (exponentBits_eq_zero_iff x).2 hlow
      have hsignificand : significand x = 2 ^ 52 + fraction x := if_neg hlow
      rw [dif_neg (by omega)]
      refine finite_congr ((toNat_one_append x).trans hsignificand.symm) ?_ _ _
      rw [toNat_exponentBits, hbias, hbits, scale, if_neg hlow]
      rfl

/-! ### Values -/

/-- The rational number that an unpacked double stands for, unless it stands for none. -/
def valueOf : UnpackedFloat → Option ℚ
  | .zero _ => some 0
  | .finite s m e _ => some ((s.apply m : ℤ) * (2 : ℚ) ^ e)
  | _ => none

/-- The rational number that a double stands for. -/
def value? (x : Float) : Option ℚ := valueOf x.toModel.unpack

theorem isFinite_iff (x : Float) : x.isFinite = true ↔ biased x ≠ 2047 := by
  change x.toModel.unpack.isFinite = true ↔ _
  rw [unpack_eq]
  split
  · rename_i hspecial
    split <;> simp [UnpackedFloat.isFinite, hspecial]
  · rename_i hspecial
    split <;> simp [UnpackedFloat.isFinite, hspecial]

theorem value?_of_isFinite {x : Float} (h : x.isFinite = true) :
    value? x = some (((sign x).apply (significand x) : ℤ) * (2 : ℚ) ^ scale x) := by
  rw [value?, unpack_eq, if_neg ((isFinite_iff x).1 h)]
  split
  · rename_i hnull
    rw [hnull]
    cases sign x <;> simp [Sign.apply, valueOf]
  · rfl

theorem value?_of_not_isFinite {x : Float} (h : ¬x.isFinite = true) : value? x = none := by
  rw [isFinite_iff, not_ne_iff] at h
  rw [value?, unpack_eq, if_pos h]
  split <;> rfl

/-- A scaled number is a whole one if it is the same without powers of two in the denominator. -/
theorem mul_zpow_eq_iff (a k e : ℤ) :
    (a : ℚ) * 2 ^ e = k ↔ a * 2 ^ e.toNat = k * 2 ^ (-e).toNat := by
  have hscale : (2 : ℚ) ^ e = 2 ^ e.toNat / 2 ^ (-e).toNat := by
    rw [eq_div_iff (by positivity), ← zpow_natCast, ← zpow_natCast, ← zpow_add₀ (by norm_num)]
    congr 1
    omega
  rw [hscale, ← mul_div_assoc, div_eq_iff (by positivity)]
  exact_mod_cast Iff.rfl

def IsWhole (x : Float) : Prop := ∃ k : ℤ, value? x = some (k : ℚ)

def IsOdd (x : Float) : Prop := ∃ k : ℤ, value? x = some ((2 * k + 1 : ℤ) : ℚ)

theorem dvd_apply_iff (s : Sign) (m d : Nat) : (d : ℤ) ∣ s.apply m ↔ d ∣ m := by
  cases s with
  | negative => exact (Int.dvd_neg).trans Int.natCast_dvd_natCast
  | positive => exact Int.natCast_dvd_natCast

/-- The sign has no part in the parity of a multiple. -/
theorem exists_apply_eq_odd_mul_iff (s : Sign) (m : Nat) {d : Nat} (hd : 0 < d) :
    (∃ k : ℤ, s.apply m = (2 * k + 1) * d) ↔ m % d = 0 ∧ m / d % 2 = 1 := by
  have hnat : (m % d = 0 ∧ m / d % 2 = 1) ↔ ∃ j : Nat, m = (2 * j + 1) * d := by
    constructor
    · rintro ⟨hmod, hodd⟩
      refine ⟨m / d / 2, ?_⟩
      have hquotient : 2 * (m / d / 2) + 1 = m / d := by omega
      rw [hquotient, Nat.div_mul_cancel (Nat.dvd_of_mod_eq_zero hmod)]
    · rintro ⟨j, rfl⟩
      rw [Nat.mul_mod_left, Nat.mul_div_cancel _ hd]
      exact ⟨rfl, by omega⟩
  have hpositive : (∃ k : ℤ, (m : ℤ) = (2 * k + 1) * d) ↔ ∃ j : Nat, m = (2 * j + 1) * d := by
    constructor
    · rintro ⟨k, hk⟩
      have hnonneg : 0 ≤ 2 * k + 1 := by
        refine nonneg_of_mul_nonneg_left (b := (d : ℤ)) ?_ (by exact_mod_cast hd)
        rw [← hk]
        exact Int.natCast_nonneg m
      obtain ⟨j, rfl⟩ := Int.eq_ofNat_of_zero_le (by omega : 0 ≤ k)
      exact ⟨j, by exact_mod_cast hk⟩
    · rintro ⟨j, rfl⟩
      exact ⟨j, by push_cast; rfl⟩
  rw [hnat, ← hpositive]
  cases s with
  | positive => rfl
  | negative =>
      have hflip : ∀ k : ℤ, (2 * (-k - 1) + 1) * (d : ℤ) = -((2 * k + 1) * d) := fun k => by ring
      constructor
      · rintro ⟨k, hk⟩
        exact ⟨-k - 1, by rw [hflip, ← hk]; exact (neg_neg _).symm⟩
      · rintro ⟨k, hk⟩
        exact ⟨-k - 1, by rw [hflip, ← hk]; rfl⟩

theorem isWhole_iff {x : Float} (h : x.isFinite = true) :
    IsWhole x ↔ ∃ k : ℤ, (sign x).apply (significand x) * 2 ^ (scale x).toNat =
      k * 2 ^ (-scale x).toNat := by
  simp only [IsWhole, value?_of_isFinite h, Option.some.injEq, mul_zpow_eq_iff]

theorem isOdd_iff {x : Float} (h : x.isFinite = true) :
    IsOdd x ↔ ∃ k : ℤ, (sign x).apply (significand x) * 2 ^ (scale x).toNat =
      (2 * k + 1) * 2 ^ (-scale x).toNat := by
  simp only [IsOdd, value?_of_isFinite h, Option.some.injEq, mul_zpow_eq_iff]

theorem not_isWhole {x : Float} (h : ¬x.isFinite = true) : ¬IsWhole x := by
  rintro ⟨k, hk⟩
  rw [value?_of_not_isFinite h] at hk
  cases hk

theorem IsOdd.isWhole {x : Float} (h : IsOdd x) : IsWhole x := by
  obtain ⟨k, hk⟩ := h
  exact ⟨2 * k + 1, hk⟩

/-- Whether a double is a whole number is settled exactly. -/
theorem isInteger_iff (x : Float) : isInteger x = true ↔ IsWhole x := by
  by_cases hfinite : x.isFinite = true
  · rw [isInteger, hfinite, Bool.true_and, Bool.or_eq_true, decide_eq_true_eq, beq_iff_eq,
      isWhole_iff hfinite]
    rcases Int.lt_or_le (scale x) 0 with hneg | hle
    · have hnone : (scale x).toNat = 0 := Int.toNat_of_nonpos hneg.le
      have hdvd := dvd_apply_iff (sign x) (significand x) (2 ^ (-scale x).toNat)
      rw [dvd_iff_exists_eq_mul_left, Nat.cast_pow] at hdvd
      rw [hnone, pow_zero, mul_one]
      refine Iff.trans ?_ hdvd.symm
      rw [Nat.dvd_iff_mod_eq_zero]
      exact or_iff_right (Int.not_le.2 hneg)
    · have hnone : (-scale x).toNat = 0 := Int.toNat_of_nonpos (by omega)
      rw [hnone, pow_zero]
      exact iff_of_true (Or.inl hle) ⟨_, (mul_one _).symm⟩
  · rw [isInteger, Bool.eq_false_iff.2 hfinite, Bool.false_and]
    exact iff_of_false Bool.false_ne_true (not_isWhole hfinite)

/-- Whether a double is an odd number is settled exactly. -/
theorem isOddInteger_iff (x : Float) : isOddInteger x = true ↔ IsOdd x := by
  by_cases hfinite : x.isFinite = true
  · rw [isOddInteger, hfinite, Bool.true_and, isOdd_iff hfinite]
    by_cases hpos : 0 < scale x
    · rw [if_pos hpos]
      refine iff_of_false Bool.false_ne_true ?_
      rintro ⟨k, hk⟩
      have hnone : (-scale x).toNat = 0 := Int.toNat_of_nonpos (by omega)
      obtain ⟨n, hn⟩ := Nat.exists_eq_succ_of_ne_zero (by omega : (scale x).toNat ≠ 0)
      rw [hnone, hn, pow_succ, pow_zero, mul_one, ← mul_assoc] at hk
      omega
    · have hnone : (scale x).toNat = 0 := Int.toNat_of_nonpos (by omega)
      have hodd := exists_apply_eq_odd_mul_iff (sign x) (significand x)
        (Nat.two_pow_pos (-scale x).toNat)
      rw [Nat.cast_pow] at hodd
      rw [if_neg hpos, hnone, pow_zero, mul_one, Bool.and_eq_true, beq_iff_eq, beq_iff_eq]
      exact hodd.symm
  · rw [isOddInteger, Bool.eq_false_iff.2 hfinite, Bool.false_and]
    exact iff_of_false Bool.false_ne_true fun h => not_isWhole hfinite h.isWhole

end Binary64

end Reckoner
