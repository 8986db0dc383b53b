import Reckoner.Binary64.Basic
import Reckoner.Scientific

/-!
The fewest decimal digits that read back to a given double. The reals that round to a double form an
interval between the midpoints to its two neighbours, with its ends exactly when the significand is
even. A decimal reads back when it lies in that interval, which is compared in whole numbers. For
one digit, two digits and so on, the two neighbours of the value on the decimal grid are tried; the
first grid with a hit wins, and of two hits the closer one, on a tie the even one.
-/

namespace Reckoner.Binary64

/-- `a * 10 ^ i` compared with `b * 2 ^ j`. -/
def compareScaled (a : Nat) (i : Int) (b : Nat) (j : Int) : Ordering :=
  compare (a * Nat.pow 10 i.toNat * Nat.pow 2 (-j).toNat)
    (b * Nat.pow 2 j.toNat * Nat.pow 10 (-i).toNat)

/-- The neighbour below is half as far away as the neighbour above. -/
def narrowBelow (x : Float) : Bool := fraction x == 0 && 1 < biased x

/-- The decimal `c * 10 ^ e` lies among the reals that round to the magnitude of `x`. -/
def readsBack (x : Float) (c : Nat) (e : Int) : Bool :=
  let quarters := 4 * significand x
  let lowest := if narrowBelow x then quarters - 1 else quarters - 2
  let below := compareScaled c e lowest (scale x - 2)
  let above := compareScaled c e (quarters + 2) (scale x - 2)
  let closed := significand x % 2 == 0
  (below == .gt || closed && below == .eq) && (above == .lt || closed && above == .eq)

/-- `floor (m * 2 ^ q / 10 ^ e)`. -/
def floorAt (m : Nat) (q e : Int) : Nat :=
  m * Nat.pow 2 q.toNat * Nat.pow 10 (-e).toNat / (Nat.pow 2 (-q).toNat * Nat.pow 10 e.toNat)

/-- The least `k` with `m * 2 ^ q < 10 ^ k`, for a nonzero `m`: the digits of the whole part, or
else the largest power of ten that keeps the value below one. -/
def magnitudeOf (m : Nat) (q : Int) : Int :=
  let whole := floorAt m q 0
  if 0 < whole then (Scientific.digits whole).length
  else 1 - ((Scientific.digits ((Nat.pow 2 (-q).toNat - 1) / m)).length : Int)

/-- The neighbour of the magnitude of `x` on the grid of `10 ^ e` that reads back, if any does. -/
def onGrid (x : Float) (e : Int) : Option (Nat × Int) :=
  let low := floorAt (significand x) (scale x) e
  let closer := compareScaled (2 * low + 1) e (2 * significand x) (scale x)
  match readsBack x low e, readsBack x (low + 1) e with
  | true, false => some (low, e)
  | false, true => some (low + 1, e)
  | true, true =>
    match closer with
    | .gt => some (low, e)
    | .lt => some (low + 1, e)
    | .eq => some (if low % 2 = 0 then low else low + 1, e)
  | false, false => none

/-- The magnitude of a finite double as it stands, with all its digits. -/
def exactDecimal (x : Float) : Nat × Int :=
  if 0 ≤ scale x then (significand x * Nat.pow 2 (scale x).toNat, 0)
  else (significand x * Nat.pow 5 (-scale x).toNat, scale x)

/-- The shortest decimal that reads back to a finite double, with no trailing zero. -/
def shortest (x : Float) : Scientific :=
  if significand x = 0 then ⟨signBit x, 0, 0⟩
  else
    let top := magnitudeOf (significand x) (scale x)
    let found := (List.range 17).findSome? fun (n : Nat) => onGrid x (top - ((n : Int) + 1))
    let (c, e) := found.getD (exactDecimal x)
    Scientific.stripped ⟨signBit x, c, e⟩

end Reckoner.Binary64
