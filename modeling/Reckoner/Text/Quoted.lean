import Reckoner.Text.Printable

/-!
Quoted text. The quote is the single one, or the double one where the text holds a single quote and
no double one. The quote in use and the backslash stand behind a backslash, three controls have a
letter, and every other character that is not printable is written by its code in the least of two,
four or eight hexadecimal digits that holds it.
-/

namespace Reckoner.Text

/-- `n` in hexadecimal, padded with zeros to a width. -/
def hex (width n : Nat) : List Char :=
  let ds := Nat.toDigits 16 n
  List.replicate (width - ds.length) '0' ++ ds

def codeEscape (n : Nat) : List Char :=
  if n < 0x100 then '\\' :: 'x' :: hex 2 n
  else if n < 0x10000 then '\\' :: 'u' :: hex 4 n
  else '\\' :: 'U' :: hex 8 n

/-- The letter of a control that has one. -/
def controlLetter? : Char → Option Char
  | '\n' => some 'n'
  | '\r' => some 'r'
  | '\t' => some 't'
  | _ => none

/-- A character inside `quote`, where `shown` says which characters stand for themselves. -/
def escape (shown : Char → Bool) (quote c : Char) : List Char :=
  if c = quote ∨ c = '\\' then ['\\', c]
  else
    match controlLetter? c with
    | some letter => ['\\', letter]
    | none => if shown c then [c] else codeEscape c.toNat

/-- The quote for a text. -/
def quoteFor (cs : List Char) : Char := if cs.contains '\'' && !cs.contains '"' then '"' else '\''

def quoteWith (shown : Char → Bool) (cs : List Char) : List Char :=
  let quote := quoteFor cs
  quote :: (cs.flatMap (escape shown quote) ++ [quote])

def quoted (s : String) : String := String.ofList (quoteWith isPrintable s.toList)

/-- Quoted bytes: ASCII characters as in text, all other bytes by their code. -/
def quotedBytes (bytes : List UInt8) : String :=
  let isShown (c : Char) : Bool := ' ' ≤ c && c ≤ '~'
  String.ofList ('b' :: quoteWith isShown (bytes.map fun byte => Char.ofNat byte.toNat))

end Reckoner.Text
