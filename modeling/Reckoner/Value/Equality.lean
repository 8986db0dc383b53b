import Reckoner.Value.Basic

/-!
Equality of values. Numbers of every class are compared by their exact values, so a true value
equals one, the two zeros are equal, and a NaN equals nothing. Texts, bytes, lists and dictionaries
equal only values of their own class; dictionaries are equal in any order of their entries. An object of
any other class equals no other one.
-/

namespace Reckoner

/-- The exact value of a real number, or what stands in its place. A decimal number, with no trailing
zero, is kept apart because its exponent may be huge. -/
inductive Exact where
  | rational (q : Rat)
  | decimal (s : Scientific)
  | infinite (negative : Bool)
  | nan

namespace Exact

def ofFloat (x : Float) : Exact :=
  if x.isNaN then nan
  else if x.isInf then infinite (Binary64.signBit x)
  else rational (Binary64.toRat x)

def ofDecimal : Decimal → Exact
  | .finite s => decimal s.stripped
  | .infinite negative => infinite negative
  | .nan _ _ _ => nan

/-- A decimal number with no trailing zero equals a rational. A power of ten that is longer than the
numerator and the denominator together cannot fit, so it is never formed. -/
def decimalIs (s : Scientific) (q : Rat) : Bool :=
  s.exponent.natAbs ≤ q.num.natAbs.log2 + q.den.log2 + 1 && s.toRat == q

/-- Two decimal numbers with no trailing zeros are equal; the sign of zero is of no account. -/
def decimalsAgree (s t : Scientific) : Bool :=
  s.coefficient == t.coefficient && s.exponent == t.exponent &&
    (s.negative == t.negative || s.coefficient == 0)

/-- Equality of exact values; NaN is not equal to itself. -/
def agrees : Exact → Exact → Bool
  | rational p, rational q => p == q
  | rational q, decimal s => decimalIs s q
  | decimal s, rational q => decimalIs s q
  | decimal s, decimal t => decimalsAgree s t
  | infinite a, infinite b => a == b
  | _, _ => false

end Exact

namespace Value

/-- The real and imaginary parts of a number of any class. -/
def parts? : Value → Option (Exact × Exact)
  | .bool b => some (.rational (if b then 1 else 0), .rational 0)
  | .int n => some (.rational n, .rational 0)
  | .float x => some (.ofFloat x, .rational 0)
  | .ratio q => some (.rational q, .rational 0)
  | .decimal d => some (.ofDecimal d, .rational 0)
  | .complex re im => some (.ofFloat re, .ofFloat im)
  | _ => none

def numbersEqual (a b : Value) : Bool :=
  match a.parts?, b.parts? with
  | some (re, im), some (re', im') => re.agrees re' && im.agrees im'
  | _, _ => false

mutual

def equal : Value → Value → Bool
  | .null, b => match b with | .null => true | _ => false
  | .text s, b => match b with | .text t => s == t | _ => false
  | .bytes s, b => match b with | .bytes t => s == t | _ => false
  | .list vs, b => match b with | .list ws => equalAll vs ws | _ => false
  | .dict es, b =>
    match b with
    | .dict fs => es.length == fs.length && entriesIn es fs
    | _ => false
  | a, b => numbersEqual a b

def equalAll : List Value → List Value → Bool
  | [], ws => ws.isEmpty
  | v :: vs, ws => match ws with | [] => false | w :: ws => equal v w && equalAll vs ws

/-- Every entry has an equal one among the others. -/
def entriesIn : List (Value × Value) → List (Value × Value) → Bool
  | [], _ => true
  | (k, v) :: es, fs => (fs.any fun f => equal k f.1 && equal v f.2) && entriesIn es fs

end

/-- Adds an entry: a key that is present keeps its place and takes the new value. -/
def insertEntry (es : List (Value × Value)) (k v : Value) : List (Value × Value) :=
  if es.any fun e => equal e.1 k then es.map fun e => if equal e.1 k then (e.1, v) else e
  else es ++ [(k, v)]

/-- The dictionary that a row of entries builds. -/
def ofEntries (es : List (Value × Value)) : Value :=
  .dict (es.foldl (fun built e => insertEntry built e.1 e.2) [])

end Value

end Reckoner
