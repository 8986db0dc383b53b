import Reckoner.Binary64.Basic
import Reckoner.Scientific
import Reckoner.Text.Character

/-!
Numerals in texts. A numeral is an optional sign before digits around an optional point and an
optional exponent, or before one of the words for infinity and NaN in any case. Blanks may surround
it, and a single underscore may stand between two digits. Outside ASCII, digits and blanks of all
scripts count as the ASCII ones.
-/

namespace Reckoner.Numeral

/-- The text without its underscores, if each of them stands between two digits; `before` is the
character in front. -/
def joinDigits (before : Char) : List Char → Option (List Char)
  | [] => if before = '_' then none else some []
  | c :: cs =>
    if c = '_' then if before.isDigit then joinDigits c cs else none
    else if before = '_' && !c.isDigit then none
    else (joinDigits c cs).map (c :: ·)

def asciiLower (cs : List Char) : String := String.ofList (cs.map Char.toLower)

def readBare (cs : List Char) : Option Float :=
  let (negative, rest) := Scientific.sign cs
  if asciiLower rest = "inf" ∨ asciiLower rest = "infinity" then
    some (Binary64.signedInfinity negative)
  else if asciiLower rest = "nan" then some Binary64.nan
  else (Scientific.readUnsigned negative rest).map Scientific.toFloat

/-- Reads an ASCII numeral with its surrounding blanks and its underscores. -/
def readAscii (cs : List Char) : Option Float :=
  (joinDigits ' ' (Text.strip Text.isAsciiBlank cs)).bind readBare

/-- A blank or digit of any script as its ASCII counterpart. ASCII characters stay, and any other
character is of no use to a numeral. -/
def asciiForm (c : Char) : Option Char :=
  if c.toNat < 127 then some c
  else if Text.isBlank c then some ' '
  else (Text.digitValue? c).map fun d => Char.ofNat ('0'.toNat + d)

/-- Reads a numeral. A text within ASCII is taken as it is. -/
def read (s : String) : Option Float :=
  if s.toList.all fun c => c.toNat < 128 then readAscii s.toList
  else (s.toList.mapM asciiForm).bind readAscii

/-- Reads a numeral from bytes, of which only ASCII ones can belong to it. -/
def readBytes (bytes : List UInt8) : Option Float :=
  if bytes.all (· < 128) then readAscii (bytes.map fun byte => Char.ofNat byte.toNat) else none

end Reckoner.Numeral
