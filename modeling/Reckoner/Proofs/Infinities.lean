import Reckoner.Proofs.ExactValue
import Reckoner.Proofs.Joining
import Reckoner.Proofs.Recovery

/-!
What division and powers give where the plain operations have no value. A division by a zero has
the product of the two signs. A power past the range of doubles, or at a pole, is negative only for
a negative base under an odd exponent, and which doubles are odd numbers is settled exactly. Zeros
have signs, too, and equal each other all the same; so signs are read off the unpacked doubles here.
-/

namespace Reckoner

open Float.Model (UnpackedFloat)
open Float.Model.UnpackedFloat (Sign)

namespace Binary64

/-- A finite double that is no zero. -/
def IsNonzero (x : Float) (s : Sign) : Prop := ∃ m e h, x.toModel.unpack = .finite s m e h

theorem sign_of_unpack {x : Float} {s : Sign} (h : x.toModel.unpack = .infinity s ∨
    x.toModel.unpack = .zero s ∨ IsNonzero x s) : sign x = s := by
  rw [IsNonzero, unpack_eq] at h
  split at h
  · split at h
    · obtain h | h | ⟨m, e, hm, h⟩ := h <;> cases h
      rfl
    · obtain h | h | ⟨m, e, hm, h⟩ := h <;> cases h
  · split at h
    · obtain h | h | ⟨m, e, hm, h⟩ := h <;> cases h
      rfl
    · obtain h | h | ⟨m, e, hm, h⟩ := h <;> cases h
      rfl

theorem beq_zero_iff (x : Float) : (x == 0) = true ↔ ∃ s, x.toModel.unpack = .zero s := by
  change (x.toModel.unpack.compare (.zero .positive) == some .eq) = true ↔ _
  rw [beq_iff_eq]
  cases x.toModel.unpack with
  | infinity s => cases s <;> simp [UnpackedFloat.compare]
  | finite s m e h => cases s <;> simp [UnpackedFloat.compare]
  | notANumber => simp [UnpackedFloat.compare]
  | zero s => simp [UnpackedFloat.compare]

theorem isNonzero_negative_iff (x : Float) :
    IsNonzero x .negative ↔ x < 0 ∧ x.isFinite = true := by
  rw [lt_zero_iff_compare, compare_zero_eq_lt_iff]
  change _ ↔ _ ∧ x.toModel.unpack.isFinite = true
  constructor
  · rintro ⟨m, e, h, hx⟩
    rw [hx]
    exact ⟨Or.inr ⟨m, e, h, rfl⟩, rfl⟩
  · rintro ⟨hx | hx, hfinite⟩
    · rw [hx] at hfinite
      cases hfinite
    · exact hx

theorem unpack_signedInfinity (negative : Bool) :
    (signedInfinity negative).toModel.unpack = .infinity (signOf negative) := by
  cases negative <;> rfl

theorem signOf_bne (x y : Float) : signOf (signBit x != signBit y) = sign x * sign y := by
  rw [sign, sign]
  cases signBit x <;> cases signBit y <;> rfl

end Binary64

open Binary64

/-! ### Where the plain operations have no value -/

/-- A zero base under a negative finite exponent. -/
def Pole (a b : Float) : Prop := (∃ s, a.toModel.unpack = .zero s) ∧ IsNonzero b .negative

/-- A negative finite base under a finite exponent that is no whole number. -/
def Broken (a b : Float) : Prop := IsNonzero a .negative ∧ b.isFinite = true ∧ ¬IsWhole b

theorem powerHasPole_iff (a b : Float) : powerHasPole a b = true ↔ Pole a b := by
  rw [powerHasPole, Bool.and_eq_true, Bool.and_eq_true, decide_eq_true_eq, beq_zero_iff, and_assoc,
    ← isNonzero_negative_iff]
  rfl

theorem powerIsUndefined_iff (a b : Float) : powerIsUndefined a b = true ↔ Broken a b := by
  rw [powerIsUndefined, Bool.and_eq_true, Bool.and_eq_true, Bool.and_eq_true, decide_eq_true_eq,
    Bool.not_eq_true', Bool.eq_false_iff, ne_eq, isInteger_iff, and_assoc, ← isNonzero_negative_iff]
  rfl

/-- Finite operands inside of the domain whose power is past the range of doubles. -/
def Overflows (a b : Float) : Prop :=
  a.isFinite = true ∧ b.isFinite = true ∧ ¬(Pole a b ∨ Broken a b) ∧ (a.pow b).isInf = true

/-! ### What they are given there -/

theorem quotient_of_zero {a b : Float} {t : Sign} (hb : b.toModel.unpack = .zero t) :
    (a.toModel.unpack = .notANumber ∨ (∃ s, a.toModel.unpack = .zero s) →
      (quotient a b).toModel.unpack = .notANumber) ∧
    ∀ s, a.toModel.unpack = .infinity s ∨ IsNonzero a s →
      (quotient a b).toModel.unpack = .infinity (s * t) := by
  have hzero : (b == 0) = true := (beq_zero_iff b).2 ⟨t, hb⟩
  rw [quotient, if_pos hzero]
  constructor
  · intro ha
    have hnan : (a == 0 || a.isNaN) = true := by
      rw [Bool.or_eq_true, beq_zero_iff, isNaN_iff]
      exact ha.symm
    rw [if_pos hnan]
    rfl
  · intro s ha
    have hnumber : ¬(a == 0 || a.isNaN) = true := by
      rw [Bool.or_eq_true, beq_zero_iff, isNaN_iff]
      rintro (⟨_, hother⟩ | hother) <;> obtain ha | ⟨_, _, _, ha⟩ := ha <;>
        exact absurd (ha.symm.trans hother) (by simp)
    rw [if_neg hnumber, unpack_signedInfinity, signOf_bne, sign_of_unpack (Or.inr (Or.inl hb)),
      sign_of_unpack (ha.imp_right Or.inr)]

theorem power_of_pole {a b : Float} {s : Sign} (ha : a.toModel.unpack = .zero s)
    (hb : IsNonzero b .negative) :
    ∃ t, (power a b).toModel.unpack = .infinity t ∧ (t = .negative ↔ s = .negative ∧ IsOdd b) := by
  have hpole : powerHasPole a b = true := (powerHasPole_iff a b).2 ⟨⟨s, ha⟩, hb⟩
  rw [power, if_pos hpole, unpack_signedInfinity]
  refine ⟨_, rfl, ?_⟩
  rw [signOf_eq_negative_iff, Bool.and_eq_true, isOddInteger_iff, ← signOf_eq_negative_iff]
  change sign a = .negative ∧ _ ↔ _
  rw [sign_of_unpack (Or.inr (Or.inl ha))]

theorem not_pole_of_broken {a b : Float} (h : Broken a b) : ¬Pole a b := by
  rintro ⟨⟨s, hzero⟩, _⟩
  obtain ⟨⟨m, e, hm, hnumber⟩, _⟩ := h
  rw [hzero] at hnumber
  cases hnumber

theorem power_of_broken {a b : Float} (h : Broken a b) :
    (power a b).toModel.unpack = .notANumber := by
  have hpole : ¬powerHasPole a b = true := mt (powerHasPole_iff a b).1 (not_pole_of_broken h)
  rw [power, if_neg hpole, if_pos ((powerIsUndefined_iff a b).2 h)]
  rfl

/-- Inside of the domain a power is the plain one, unless this one is past the range. -/
theorem power_of_finite {a b : Float} (ha : a.isFinite = true) (hb : b.isFinite = true)
    (hdomain : ¬(Pole a b ∨ Broken a b)) :
    if (a.pow b).isInf then
      ∃ t, (power a b).toModel.unpack = .infinity t ∧
        (t = .negative ↔ IsNonzero a .negative ∧ IsOdd b)
    else power a b = a.pow b := by
  obtain ⟨hpole, hbroken⟩ := not_or.1 hdomain
  have hpower : power a b = if (a.pow b).isInf then signedInfinity (a < 0 && isOddInteger b)
      else a.pow b := by
    simp only [power, if_neg (mt (powerHasPole_iff a b).1 hpole),
      if_neg (mt (powerIsUndefined_iff a b).1 hbroken), ha, hb, Bool.and_true]
  by_cases hover : (a.pow b).isInf = true
  · rw [if_pos hover, hpower, if_pos hover, unpack_signedInfinity]
    refine ⟨_, rfl, ?_⟩
    rw [signOf_eq_negative_iff, Bool.and_eq_true, decide_eq_true_eq, isOddInteger_iff,
      isNonzero_negative_iff, and_iff_left ha]
  · rw [if_neg hover, hpower, if_neg hover]

/-! ### Gaps -/

namespace Gap

theorem quotient_eq_error_iff (a b : Float) (gap : Gap) :
    quotient a b = .error gap ↔ gap = .zeroDivisor ∧ ∃ t, b.toModel.unpack = .zero t := by
  rw [quotient, ← beq_zero_iff]
  by_cases hb : (b == 0) = true
  · rw [if_pos hb]
    simp [hb, eq_comm]
  · rw [if_neg hb]
    simp [hb]

theorem power_eq_error_iff (a b : Float) (gap : Gap) :
    power a b = .error gap ↔
      gap = .domain ∧ (Pole a b ∨ Broken a b) ∨ gap = .overflow ∧ Overflows a b := by
  have hdomain : (powerHasPole a b || powerIsUndefined a b) = true ↔ Pole a b ∨ Broken a b := by
    rw [Bool.or_eq_true, powerHasPole_iff, powerIsUndefined_iff]
  rw [power]
  by_cases hgap : (powerHasPole a b || powerIsUndefined a b) = true
  · rw [if_pos hgap]
    constructor
    · intro h
      obtain rfl := Except.error.inj h
      exact Or.inl ⟨rfl, hdomain.1 hgap⟩
    · rintro (⟨rfl, _⟩ | ⟨_, _, _, hnot, _⟩)
      · rfl
      · exact absurd (hdomain.1 hgap) hnot
  · have hnot := mt hdomain.2 hgap
    rw [if_neg hgap]
    by_cases hover : ((a.pow b).isInf && a.isFinite && b.isFinite) = true
    · rw [if_pos hover]
      rw [Bool.and_eq_true, Bool.and_eq_true] at hover
      constructor
      · intro h
        obtain rfl := Except.error.inj h
        exact Or.inr ⟨rfl, hover.1.2, hover.2, hnot, hover.1.1⟩
      · rintro (⟨_, hgap⟩ | ⟨rfl, _⟩)
        · exact absurd hgap hnot
        · rfl
    · rw [if_neg hover]
      constructor
      · intro h
        cases h
      · rintro (⟨_, hgap⟩ | ⟨_, ha, hb, _, hinf⟩)
        · exact absurd hgap hnot
        · rw [ha, hb, hinf] at hover
          exact absurd rfl hover

end Gap

/-- **Division and powers recover with the right infinity or NaN.** Plain division has no value
under a zero, of either sign, and a plain power has none at a pole, under a broken exponent of a
negative base, and where finite operands overflow. What the two operators give there, for all
doubles: a division by a zero is NaN for a zero or NaN and otherwise the infinity with the product
of the two signs; a zero base under a negative finite exponent is an infinity, negative if the sign of
the base is and the exponent is an odd number; a broken exponent gives NaN; and what overflows is an
infinity, negative if the base is and the exponent is an odd number. Whether it is odd is settled
exactly. -/
theorem recovers_with_sign (a b : Float) :
    (Arithmetic.div.apply [a, b] = .ok (quotient a b) ∧
      (Gap.quotient a b).tryCatch (Gap.ofQuotient a b) = .ok (quotient a b) ∧
      ∀ gap, Gap.quotient a b = .error gap ↔
        gap = .zeroDivisor ∧ ∃ t, b.toModel.unpack = .zero t) ∧
    (Arithmetic.pow.apply [a, b] = .ok (power a b) ∧
      (Gap.power a b).tryCatch (Gap.ofPower a b) = .ok (power a b) ∧
      ∀ gap, Gap.power a b = .error gap ↔
        gap = .domain ∧ (Pole a b ∨ Broken a b) ∨ gap = .overflow ∧ Overflows a b) ∧
    (∀ t, b.toModel.unpack = .zero t →
      (a.toModel.unpack = .notANumber ∨ (∃ s, a.toModel.unpack = .zero s) →
        (quotient a b).toModel.unpack = .notANumber) ∧
      ∀ s, a.toModel.unpack = .infinity s ∨ IsNonzero a s →
        (quotient a b).toModel.unpack = .infinity (s * t)) ∧
    (∀ s, a.toModel.unpack = .zero s → IsNonzero b .negative →
      ∃ t, (power a b).toModel.unpack = .infinity t ∧
        (t = .negative ↔ s = .negative ∧ IsOdd b)) ∧
    (Broken a b → (power a b).toModel.unpack = .notANumber) ∧
    (a.isFinite = true → b.isFinite = true → ¬(Pole a b ∨ Broken a b) →
      if (a.pow b).isInf then
        ∃ t, (power a b).toModel.unpack = .infinity t ∧
          (t = .negative ↔ IsNonzero a .negative ∧ IsOdd b)
      else power a b = a.pow b) ∧
    (isOddInteger b = true ↔ IsOdd b) :=
  ⟨⟨rfl, quotient_recovers a b, Gap.quotient_eq_error_iff a b⟩,
    ⟨rfl, power_recovers a b, Gap.power_eq_error_iff a b⟩,
    fun _ => quotient_of_zero, fun _ => power_of_pole, power_of_broken, power_of_finite,
    isOddInteger_iff b⟩

/-- Minus one by the negative zero, the negative zero to the power of minus three, a root of minus
two, and a power of minus ten that is past the range of doubles. -/
theorem recovers_with_sign_negative :
    (quotient (-1) (-0)).toModel.unpack = .infinity .positive ∧
    (quotient 0 (-0)).toModel.unpack = .notANumber ∧
    (power (-0) (-3)).toModel.unpack = .infinity .negative ∧
    (power (-2) 0.5).toModel.unpack = .notANumber ∧
    if ((-10 : Float).pow 309).isInf then (power (-10) 309).toModel.unpack = .infinity .negative
    else power (-10) 309 = (-10 : Float).pow 309 := by
  have hzero : (-0 : Float).toModel.unpack = .zero .negative := rfl
  have hone : IsNonzero (-1) .negative := (isNonzero_negative_iff _).2 (by decide +kernel)
  have hthree : IsNonzero (-3) .negative := (isNonzero_negative_iff _).2 (by decide +kernel)
  have hten : IsNonzero (-10) .negative := (isNonzero_negative_iff _).2 (by decide +kernel)
  have hodd : IsOdd (-3) ∧ IsOdd 309 := by
    rw [← isOddInteger_iff, ← isOddInteger_iff]
    decide +kernel
  have hbroken : Broken (-2) 0.5 := (powerIsUndefined_iff _ _).1 (by decide +kernel)
  have hdomain : ¬(Pole (-10) 309 ∨ Broken (-10) 309) := by
    rw [← powerHasPole_iff, ← powerIsUndefined_iff]
    decide +kernel
  obtain ⟨_, _, hdivides, _⟩ := recovers_with_sign (-1) (-0)
  obtain ⟨_, _, hdividesZero, _⟩ := recovers_with_sign 0 (-0)
  obtain ⟨_, _, _, hpole, _⟩ := recovers_with_sign (-0) (-3)
  obtain ⟨_, _, _, _, hroot, _⟩ := recovers_with_sign (-2) 0.5
  obtain ⟨_, _, _, _, _, hover, _⟩ := recovers_with_sign (-10) 309
  refine ⟨(hdivides _ hzero).2 _ (Or.inr hone), (hdividesZero _ hzero).1 (Or.inr ⟨_, rfl⟩), ?_,
    hroot hbroken, ?_⟩
  · obtain ⟨t, ht, hsign⟩ := hpole _ hzero hthree
    rw [ht, hsign.2 ⟨rfl, hodd.1⟩]
  · have hover := hover (by decide +kernel) (by decide +kernel) hdomain
    split
    · rename_i hinf
      rw [if_pos hinf] at hover
      obtain ⟨t, ht, hsign⟩ := hover
      rw [ht, hsign.2 ⟨hten, hodd.2⟩]
    · rename_i hinf
      rwa [if_neg hinf] at hover

end Reckoner
