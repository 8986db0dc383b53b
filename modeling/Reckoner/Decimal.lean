import Reckoner.Binary64.Basic
import Reckoner.Scientific
import Reckoner.Text.Character

/-!
Exact decimal numbers: they keep the number of their digits, so `1.50` and `1.5` are equal values in
two spellings. Besides the finite ones there are the infinities and two kinds of NaN with an
optional payload.
-/

namespace Reckoner

/-- An exact decimal number. A NaN has a payload, of which zero is not written. -/
inductive Decimal where
  | finite (value : Scientific)
  | infinite (negative : Bool)
  | nan (negative signaling : Bool) (payload : Nat)
  deriving DecidableEq

namespace Decimal

/-- Reads the digits after the word for NaN. -/
def payload (cs : List Char) : Option Nat :=
  if cs.all Char.isDigit then some (Scientific.ofDigits cs) else none

def readUnsigned (negative : Bool) (cs : List Char) : Option Decimal :=
  match cs.map Char.toLower with
  | 's' :: 'n' :: 'a' :: 'n' :: rest => (payload rest).map (nan negative true)
  | 'n' :: 'a' :: 'n' :: rest => (payload rest).map (nan negative false)
  | word =>
    if word = "inf".toList ∨ word = "infinity".toList then some (infinite negative)
    else (Scientific.readUnsigned negative cs).map finite

/-- Reads a decimal number. Blanks may surround it and underscores are skipped. -/
def read (s : String) : Option Decimal :=
  let cs := (Text.strip Text.isBlank s.toList).filter (· != '_')
  let (negative, rest) := Scientific.sign cs
  readUnsigned negative rest

/-- The digits of a coefficient with the point `dot` places behind the first of them. -/
def placePoint (ds : List Char) (dot : Int) : List Char :=
  if dot ≤ 0 then '0' :: '.' :: (List.replicate (-dot).toNat '0' ++ ds)
  else if ds.length ≤ dot.toNat then ds ++ List.replicate (dot.toNat - ds.length) '0'
  else ds.take dot.toNat ++ '.' :: ds.drop dot.toNat

/-- The magnitude of a finite decimal number: positional where the exponent is not positive and the
leading digit stands at most six places behind the point, and otherwise with one digit before it. -/
def magnitude (s : Scientific) : List Char :=
  let ds := Scientific.digits s.coefficient
  let dot := s.exponent + ds.length
  if s.exponent ≤ 0 ∧ -6 < dot then placePoint ds dot
  else
    let e := dot - 1
    let mark := if e = 0 then [] else
      'E' :: (if e < 0 then '-' else '+') :: Scientific.digits e.natAbs
    placePoint ds 1 ++ mark

def written (d : Decimal) : String :=
  let (negative, text) :=
    match d with
    | finite s => (s.negative, magnitude s)
    | infinite negative => (negative, "Infinity".toList)
    | nan negative signaling n =>
      (negative, (if signaling then "sNaN" else "NaN").toList ++
        if n = 0 then [] else Scientific.digits n)
  String.ofList (if negative then '-' :: text else text)

/-- The double nearest to a decimal number; a signaling NaN has none. -/
def toFloat? : Decimal → Option Float
  | finite s => some s.toFloat
  | infinite negative => some (Binary64.signedInfinity negative)
  | nan _ signaling _ => if signaling then none else some Binary64.nan

end Decimal

end Reckoner
