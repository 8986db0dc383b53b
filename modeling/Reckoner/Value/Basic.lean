import Reckoner.Binary64.Written
import Reckoner.Decimal
import Reckoner.Text.Quoted

/-!
Values: what a number token may carry and what an implementation may return. Only some of them are
numbers, and of those only some can be an operand; the evaluator decides which.

A value has a literal form, which shows of what kind it is, as with the quotes of a text, and a plain
form, which differs from it for texts, ratios and decimal numbers only. Elements of lists and
dictionaries are always shown in literal form. Not every value can be written: a whole number may have
too many digits, and an object of a class of its own may refuse. The attempt then raises an exception.
-/

namespace Reckoner

/-- The names of the classes of errors of this library. -/
def libraryLabels : List String :=
  ["EvalError", "NotEnoughArgumentsError", "LogicError", "IllegalJoinError", "FunctionCallError",
    "UnknownFunctionError", "UnsupportedOperatorError"]

/-- An exception of a class that is none of the library's: a failure or an order to stop, with its
text or what the attempt to write this raises. -/
structure Signal where
  label : String
  isStop : Bool
  text : Except Signal String
  foreign : label ∉ libraryLabels := by decide

/-- A dynamic value. The entries of a dictionary stand in the order in which its keys arrived, and an
object of any other class has the name of its class and its literal form. -/
inductive Value where
  | null
  | bool (b : Bool)
  | int (n : Int)
  | float (x : Float)
  | ratio (q : Rat)
  | decimal (d : Decimal)
  | complex (re im : Float)
  | text (s : String)
  | bytes (bs : List UInt8)
  | list (elements : List Value)
  | dict (entries : List (Value × Value))
  | object (label : String) (form : Except Signal String)

/-! ### Whole numbers -/

/-- The most digits that a whole number may be written with. -/
def digitLimit : Nat := 4300

/-- What is raised for a whole number that has more digits. -/
def Signal.tooManyDigits : Signal where
  label := "ValueError"
  isStop := false
  text := .ok <| "Exceeds the limit (4300 digits) for integer string conversion; " ++
    "use sys.set_int_max_str_digits() to increase the limit"

def integerText (n : Int) : Except Signal String :=
  if (Scientific.digits n.natAbs).length ≤ digitLimit then .ok (toString n)
  else .error .tooManyDigits

namespace Value

/-! ### Literal form -/

/-- A complex number: its imaginary part alone where the real part is a positive zero, and otherwise
both in parentheses, the imaginary one with its sign. -/
def complexText (re im : Float) : String :=
  let imaginary := Binary64.component.write im
  if re == 0 && !Binary64.signBit re then imaginary ++ "j"
  else
    let plus := if im.isNaN || !Binary64.signBit im then "+" else ""
    "(" ++ Binary64.component.write re ++ plus ++ imaginary ++ "j)"

def commaList (texts : List String) : String := ", ".intercalate texts

mutual

def written : Value → Except Signal String
  | .null => .ok "None"
  | .bool b => .ok (if b then "True" else "False")
  | .int n => integerText n
  | .float x => .ok (Binary64.written x)
  | .ratio q => do
    let numerator ← integerText q.num
    let denominator ← integerText q.den
    return s!"Fraction({numerator}, {denominator})"
  | .decimal d => .ok s!"Decimal('{d.written}')"
  | .complex re im => .ok (complexText re im)
  | .text s => .ok (Text.quoted s)
  | .bytes bs => .ok (Text.quotedBytes bs)
  | .list vs => (writtenAll vs).map fun texts => "[" ++ commaList texts ++ "]"
  | .dict es => (writtenEntries es).map fun texts => "\x7b" ++ commaList texts ++ "\x7d"
  | .object _ form => form

/-- The literal forms of the elements of a list, up to the first one that cannot be written. -/
def writtenAll : List Value → Except Signal (List String)
  | [] => .ok []
  | v :: vs => do
    let text ← written v
    let texts ← writtenAll vs
    return text :: texts

def writtenEntries : List (Value × Value) → Except Signal (List String)
  | [] => .ok []
  | (k, v) :: es => do
    let key ← written k
    let text ← written v
    let texts ← writtenEntries es
    return (key ++ ": " ++ text) :: texts

end

/-! ### Plain form -/

def plain : Value → Except Signal String
  | .text s => .ok s
  | .ratio q =>
    if q.den = 1 then integerText q.num
    else do
      let numerator ← integerText q.num
      let denominator ← integerText q.den
      return s!"{numerator}/{denominator}"
  | .decimal d => .ok d.written
  | v => written v

/-- A row of values in parentheses; a single one keeps a comma. -/
def row : List Value → Except Signal String
  | [v] => (written v).map fun text => "(" ++ text ++ ",)"
  | vs => (writtenAll vs).map fun texts => "(" ++ commaList texts ++ ")"

def typeName : Value → String
  | .null => "NoneType"
  | .bool _ => "bool"
  | .int _ => "int"
  | .float _ => "float"
  | .ratio _ => "Fraction"
  | .decimal _ => "decimal.Decimal"
  | .complex _ _ => "complex"
  | .text _ => "str"
  | .bytes _ => "bytes"
  | .list _ => "list"
  | .dict _ => "dict"
  | .object label _ => label

end Value

end Reckoner
