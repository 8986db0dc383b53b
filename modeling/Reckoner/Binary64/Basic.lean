/-!
The parts of a double and exact questions about its value. A finite double is its sign times
`significand * 2 ^ scale`, and every question here is settled on these integers: whether the value
is an odd integer, which rational it is, and which double lies nearest to a quotient.
-/

namespace Reckoner.Binary64

def fraction (x : Float) : Nat := x.toBits.toNat % Nat.pow 2 52

/-- The biased exponent field; `2047` marks an infinity or NaN, `0` a value below the normal range.
-/
def biased (x : Float) : Nat := x.toBits.toNat / Nat.pow 2 52 % Nat.pow 2 11

def signBit (x : Float) : Bool := x.toBits.toNat / Nat.pow 2 63 == 1

/-- The significand of a finite double, with the leading bit that normal values leave implicit. -/
def significand (x : Float) : Nat := if biased x = 0 then fraction x else Nat.pow 2 52 + fraction x

/-- The power of two that scales the significand of a finite double. -/
def scale (x : Float) : Int := if biased x = 0 then -1074 else (biased x : Int) - 1075

def infinity : Float := Float.ofBits 0x7FF0000000000000

def nan : Float := Float.ofBits 0x7FF8000000000000

def signedInfinity (negative : Bool) : Float := if negative then -infinity else infinity

/-- The value is a whole number: the negative powers of two in its scale divide the significand. -/
def isInteger (x : Float) : Bool :=
  x.isFinite && (0 ≤ scale x || significand x % Nat.pow 2 (-scale x).toNat == 0)

/-- The value is an odd whole number, exactly, for every finite double of either sign. -/
def isOddInteger (x : Float) : Bool :=
  x.isFinite &&
    if 0 < scale x then false
    else significand x % Nat.pow 2 (-scale x).toNat == 0 &&
      significand x / Nat.pow 2 (-scale x).toNat % 2 == 1

def toRat (x : Float) : Rat :=
  let magnitude : Rat :=
    if 0 ≤ scale x then ((significand x * Nat.pow 2 (scale x).toNat : Nat) : Rat)
    else mkRat (significand x) (Nat.pow 2 (-scale x).toNat)
  if signBit x then -magnitude else magnitude

/-- A nonzero whole number before any rounding. -/
def unrounded (n : Int) (nonzero : 0 < n.natAbs) : Float.Model.UnpackedFloat :=
  .finite (if n < 0 then .negative else .positive) n.natAbs 0 nonzero

/-- The double nearest to `n / d`, a tie going to the even significand: an infinity where the
quotient rounds past the largest finite double, and a zero with the sign of `n` where it rounds
below the least positive one. -/
def nearest (n : Int) (d : Nat) : Float :=
  if hn : 0 < n.natAbs then
    if hd : 0 < (d : Int).natAbs then
      .ofModel (.pack (.div .binary64 (unrounded n hn) (unrounded d hd)))
    else 0
  else 0

def ofInteger (n : Int) : Float := nearest n 1

end Reckoner.Binary64
