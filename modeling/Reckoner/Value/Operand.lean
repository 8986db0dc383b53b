import Reckoner.Fault
import Reckoner.Numeral

/-!
Values as doubles. A payload may be a number of any real class or a text or bytes that hold a
numeral; the result of an implementation must be a whole number, a double or a ratio.
-/

namespace Reckoner.Value

/-- The double nearest to a whole number, which must not round past the range. -/
def integerOperand (n : Int) : Except Fault Float :=
  let x := Binary64.ofInteger n
  if x.isInf then .error .integerTooLarge else .ok x

/-- The double nearest to a ratio, which must not round past the range. -/
def ratioOperand (q : Rat) : Except Fault Float :=
  let x := Binary64.nearest q.num q.den
  if x.isInf then .error .ratioTooLarge else .ok x

/-- The double that a number token pushes for its payload. -/
def operand : Value → Except Fault Float
  | .bool b => .ok (if b then 1 else 0)
  | .int n => integerOperand n
  | .float x => .ok x
  | .ratio q => ratioOperand q
  | .decimal d => match d.toFloat? with | some x => .ok x | none => .error .signalingNaN
  | .text s =>
    match Numeral.read s with
    | some x => .ok x
    | none => .error (.notANumeral (Text.quoted s))
  | .bytes bs =>
    match Numeral.readBytes bs with
    | some x => .ok x
    | none => .error (.notANumeral (Text.quotedBytes bs))
  | v => .error (.notReal v)

/-- The double that a call gives for what the implementation of `name` returned. -/
def asResult (name : String) : Value → Except Fault Float
  | .int n => integerOperand n
  | .float x => .ok x
  | .ratio q => ratioOperand q
  | v => .error (.ofResult name v)

def scaled (x : Float) : Value → Except Fault Value
  | .bool b => .ok (.float (x * if b then 1 else 0))
  | .int n => (integerOperand n).map fun y => .float (x * y)
  | .float y => .ok (.float (x * y))
  | .ratio q => (ratioOperand q).map fun y => .float (x * y)
  | .complex re im => .ok (.complex (x * re - 0 * im) (x * im + 0 * re))
  | .text _ => .error .sequenceProduct
  | .bytes _ => .error .sequenceProduct
  | .list _ => .error .sequenceProduct
  | v => .error (.noProduct v)

end Reckoner.Value
