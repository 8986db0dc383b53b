/-!
Signed decimal numbers `± coefficient * 10 ^ exponent`. They are what a numeral in a text denotes,
what the exact decimal values hold, and what the shortest text of a double is laid out from.
-/

namespace Reckoner

/-- A signed decimal number; the sign is kept for a zero coefficient too. -/
structure Scientific where
  negative : Bool
  coefficient : Nat
  exponent : Int
  deriving DecidableEq

namespace Scientific

def digits (n : Nat) : List Char := Nat.toDigits 10 n

/-- The number with no trailing zero in its coefficient; zero has exponent zero. As many factors of ten
may move to the exponent as the coefficient has units, which is more than it has digits. -/
def stripped (s : Scientific) : Scientific :=
  go s.coefficient s.coefficient s.exponent
where
  go : Nat → Nat → Int → Scientific
  | 0, c, e => ⟨s.negative, c, if c = 0 then 0 else e⟩
  | fuel + 1, c, e => if c % 10 = 0 then go fuel (c / 10) (e + 1) else ⟨s.negative, c, e⟩

/-- The double nearest to the number, infinite past the range and a signed zero below it. -/
def toFloat (s : Scientific) : Float :=
  let magnitude := Float.ofScientific s.coefficient (s.exponent < 0) s.exponent.natAbs
  if s.negative then -magnitude else magnitude

def toRat (s : Scientific) : Rat :=
  let magnitude : Rat :=
    if 0 ≤ s.exponent then ((s.coefficient * Nat.pow 10 s.exponent.toNat : Nat) : Rat)
    else mkRat s.coefficient (Nat.pow 10 (-s.exponent).toNat)
  if s.negative then -magnitude else magnitude

/-- An optional sign in front of `cs`. -/
def sign : List Char → Bool × List Char
  | '+' :: cs => (false, cs)
  | '-' :: cs => (true, cs)
  | cs => (false, cs)

/-- The number that a run of ASCII digits denotes. -/
def ofDigits (cs : List Char) : Nat := cs.foldl (fun n c => 10 * n + (c.toNat - '0'.toNat)) 0

/-- The exponent part of a numeral: nothing, or a mark, an optional sign and at least one digit. -/
def exponentPart : List Char → Option Int
  | [] => some 0
  | mark :: cs =>
    let (negative, ds) := sign cs
    if (mark == 'e' || mark == 'E') && !ds.isEmpty && ds.all Char.isDigit then
      some (if negative then -(ofDigits ds : Int) else ofDigits ds)
    else none

/-- The fraction part of a numeral, and what follows it: a point and any number of digits. -/
def fractionPart : List Char → List Char × List Char
  | '.' :: cs => (cs.takeWhile Char.isDigit, cs.dropWhile Char.isDigit)
  | cs => ([], cs)

/-- Reads an unsigned numeral: digits around an optional point, at least one of them, then an
optional exponent, and nothing else. -/
def readUnsigned (negative : Bool) (cs : List Char) : Option Scientific :=
  let whole := cs.takeWhile Char.isDigit
  let (fraction, rest) := fractionPart (cs.dropWhile Char.isDigit)
  if whole.isEmpty && fraction.isEmpty then none
  else (exponentPart rest).map fun e =>
    ⟨negative, ofDigits (whole ++ fraction), e - fraction.length⟩

end Scientific

end Reckoner
