import Reckoner.Binary64.Shortest

/-!
How doubles are written: the fewest digits that read back, positionally while the exponent of the
leading digit lies from -4 to 15, and otherwise with one digit before the point and a signed
exponent of at least two digits.
-/

namespace Reckoner.Binary64

/-- The decisions of a notation that the digits leave open: from which exponent of the leading digit on
and below which one a number is written positionally, whether a whole number then ends in a point and a
zero, and how many digits an exponent has at least. -/
structure Layout where
  positionalFrom : Int
  positionalBelow : Int
  pointZero : Bool
  exponentWidth : Nat

/-- A value that stands for itself. -/
def plain : Layout where
  positionalFrom := -4
  positionalBelow := 16
  pointZero := true
  exponentWidth := 2

/-- A part of a complex number: as a plain value, but a whole number goes without a point. -/
def component : Layout := { plain with pointZero := false }

/-- The exponent with its mark, its sign and at least the digits that the layout asks for. -/
def Layout.exponentText (layout : Layout) (e : Int) : List Char :=
  let ds := Scientific.digits e.natAbs
  let padding := List.replicate (layout.exponentWidth - ds.length) '0'
  'e' :: (if e < 0 then '-' else '+') :: (padding ++ ds)

/-- Digits `ds` whose leading one has exponent `e`, written positionally. -/
def Layout.positional (layout : Layout) (ds : List Char) (e : Int) : List Char :=
  if e < 0 then '0' :: '.' :: (List.replicate (-e - 1).toNat '0' ++ ds)
  else
    let whole := e.toNat + 1
    if ds.length ≤ whole then
      ds ++ List.replicate (whole - ds.length) '0' ++ (if layout.pointZero then ['.', '0'] else [])
    else ds.take whole ++ '.' :: ds.drop whole

/-- Digits `ds` whose leading one has exponent `e`, written with an exponent. -/
def Layout.withExponent (layout : Layout) (ds : List Char) (e : Int) : List Char :=
  (match ds with
    | d :: r :: rs => d :: '.' :: r :: rs
    | ds => ds) ++ layout.exponentText e

def Layout.magnitude (layout : Layout) (s : Scientific) : List Char :=
  let ds := Scientific.digits s.coefficient
  let e := s.exponent + ds.length - 1
  if layout.positionalFrom ≤ e ∧ e < layout.positionalBelow then layout.positional ds e
  else layout.withExponent ds e

/-- A double in a layout. NaN has no sign. -/
def Layout.write (layout : Layout) (x : Float) : String :=
  if x.isNaN then "nan"
  else
    let magnitude := if x.isInf then "inf" else String.ofList (layout.magnitude (shortest x))
    if signBit x then "-" ++ magnitude else magnitude

def written (x : Float) : String := plain.write x

end Reckoner.Binary64
