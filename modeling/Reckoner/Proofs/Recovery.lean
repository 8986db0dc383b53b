import Reckoner.Arithmetic

/-!
Why division and powers never fail. The plain operations have gaps: no double divides by a zero, a
zero base has no power under a negative exponent, a negative base none under a broken one, and some
powers leave the range of the doubles. Each operation comes with a handler for the gaps of its own.
Here both parts are separate, and an operation is shown to be the plain one with its handler: every
gap that can occur is handled, with the value that the operation has there.
-/

namespace Reckoner

/-- Why a plain operation has no value: its divisor is zero, its operands are outside of its domain, or the
value is past the range of doubles. -/
inductive Gap where
  | zeroDivisor
  | domain
  | overflow
  deriving DecidableEq, Repr

namespace Gap

def quotient (a b : Float) : Except Gap Float := if b == 0 then .error .zeroDivisor else .ok (a / b)

/-- What division makes of a gap; it knows of zero divisors only. -/
def ofQuotient (a b : Float) : Gap → Except Gap Float
  | zeroDivisor =>
    if a == 0 || a.isNaN then .ok Binary64.nan
    else .ok (Binary64.signedInfinity (Binary64.signBit a) *
      if Binary64.signBit b then -1 else 1)
  | gap => .error gap

def power (a b : Float) : Except Gap Float :=
  if powerHasPole a b || powerIsUndefined a b then .error .domain
  else if (a.pow b).isInf && a.isFinite && b.isFinite then .error .overflow
  else .ok (a.pow b)

/-- What a power makes of a gap: poles and broken exponents come as one. -/
def ofPower (a b : Float) : Gap → Except Gap Float
  | domain =>
    if a == 0 then
      .ok (if Binary64.isOddInteger b then Binary64.signedInfinity (Binary64.signBit a)
        else Binary64.infinity)
    else .ok Binary64.nan
  | overflow =>
    .ok (if a < 0 && Binary64.isOddInteger b then -Binary64.infinity else Binary64.infinity)
  | gap => .error gap

/-- An infinity times a unit has the product of the two signs. -/
theorem signedInfinity_mul (negative negative' : Bool) :
    Binary64.signedInfinity negative * (if negative' then -1 else 1) =
      Binary64.signedInfinity (negative != negative') := by
  cases negative <;> cases negative' <;> decide +kernel

/-- No double is both below zero and equal to it. -/
theorem ne_zero_of_lt {a : Float} (h : a < 0) : (a == 0) = false := by
  let order := a.toModel.unpack.compare (0 : Float).toModel.unpack
  have hlt : (order == some .lt) = true := of_decide_eq_true h
  change (order == some .eq) = false
  rw [beq_iff_eq.1 hlt]
  rfl

end Gap

/-- Division is plain division with its handler. -/
theorem quotient_recovers (a b : Float) :
    (Gap.quotient a b).tryCatch (Gap.ofQuotient a b) = .ok (quotient a b) := by
  by_cases hb : (b == 0) = true
  · have hgap : Gap.quotient a b = .error .zeroDivisor := if_pos hb
    rw [hgap, quotient, if_pos hb]
    change Gap.ofQuotient a b .zeroDivisor = _
    by_cases ha : (a == 0 || a.isNaN) = true
    · rw [Gap.ofQuotient, if_pos ha, if_pos ha]
    · rw [Gap.ofQuotient, if_neg ha, if_neg ha, Gap.signedInfinity_mul]
  · have hplain : Gap.quotient a b = .ok (a / b) := if_neg hb
    rw [hplain, quotient, if_neg hb]
    rfl

namespace Gap

/-- At a pole the handler has the sign that the power has there. -/
theorem ofPower_pole {a b : Float} (h : powerHasPole a b = true) :
    ofPower a b .domain =
      .ok (Binary64.signedInfinity (Binary64.signBit a && Binary64.isOddInteger b)) := by
  have hzero : (a == 0) = true := by
    rw [powerHasPole, Bool.and_eq_true, Bool.and_eq_true] at h
    exact h.1.1
  rw [ofPower, if_pos hzero]
  cases Binary64.isOddInteger b with
  | true => rw [if_pos rfl, Bool.and_true]
  | false =>
      rw [if_neg Bool.false_ne_true, Bool.and_false]
      rfl

theorem ofPower_undefined {a b : Float} (h : powerIsUndefined a b = true) :
    ofPower a b .domain = .ok Binary64.nan := by
  have hlt : a < 0 := by
    rw [powerIsUndefined, Bool.and_eq_true, Bool.and_eq_true, Bool.and_eq_true] at h
    exact of_decide_eq_true h.1.1.1
  rw [ofPower, if_neg (Bool.eq_false_iff.1 (ne_zero_of_lt hlt))]

end Gap

/-- A power is the plain power with its handler. -/
theorem power_recovers (a b : Float) :
    (Gap.power a b).tryCatch (Gap.ofPower a b) = .ok (power a b) := by
  by_cases hpole : powerHasPole a b = true
  · have hgap : Gap.power a b = .error .domain := if_pos (by rw [hpole, Bool.true_or])
    rw [hgap, power, if_pos hpole]
    exact Gap.ofPower_pole hpole
  · by_cases hundefined : powerIsUndefined a b = true
    · have hgap : Gap.power a b = .error .domain := if_pos (by rw [hundefined, Bool.or_true])
      rw [hgap, power, if_neg hpole, if_pos hundefined]
      exact Gap.ofPower_undefined hundefined
    · have hdomain : ¬(powerHasPole a b || powerIsUndefined a b) = true := by
        rw [Bool.or_eq_true]
        exact not_or_intro hpole hundefined
      rw [Gap.power, if_neg hdomain, power, if_neg hpole, if_neg hundefined]
      by_cases hover : ((a.pow b).isInf && a.isFinite && b.isFinite) = true
      · rw [if_pos hover, if_pos hover]
        rfl
      · rw [if_neg hover, if_neg hover]
        rfl

end Reckoner
