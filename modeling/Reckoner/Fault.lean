import Reckoner.Item

/-!
Why an evaluation or a table operation fails. A fault is a cause; its class name and its text are
functions of it. Some causes reject a token stream, and a few are no failures at all but orders to
stop, which nothing wraps and nobody reports.

A fault that quotes something is raised with the text of what it quotes, and where this cannot be
written, what the attempt raises comes in its place.
-/

namespace Reckoner

/-- A cause of failure. Three are those of implementations: an exception of a class that is none of the
library's, an error of the library or of a class derived from one that was made by hand, and the end of
the depth that evaluations may have. A call whose implementation failed has its text, unless what it
failed with has none: then the exception that was raised instead is the fault. -/
inductive Fault where
  | tooFewValues (kind : Kind) (required available : Nat)
  | unreduced (remaining : Nat)
  | negativeJoin (left right : Float)
  | callFailed (name text : String) (cause : Fault)
  | unwritten (name : String) (cause : Fault) (signal : Signal)
  | notNumeric (name text : String)
  | unknownFunction (name : String)
  | joinDisabled
  | notAToken (text : String)
  | notAKind (text : String)
  | noSource
  | negativeArity (name : String) (arity : Int)
  | notReal (payload : Value)
  | notANumeral (text : String)
  | integerTooLarge
  | ratioTooLarge
  | signalingNaN
  | wrongCount (expected given : Nat)
  | notArithmetic (key : Item)
  | unhashable (key : Value)
  | noSuchArgument
  | divisionByZero
  | noProduct (factor : Value)
  | sequenceProduct
  | raised (signal : Signal)
  | crafted (label : String) (rejects : Bool) (text : Except Signal String)
  | tooDeep

namespace Fault

def rejectsStream : Fault → Bool
  | tooFewValues _ _ _ => true
  | unreduced _ => true
  | negativeJoin _ _ => true
  | callFailed _ _ _ => true
  | notNumeric _ _ => true
  | crafted _ rejects _ => rejects
  | _ => false

def isStop : Fault → Bool
  | unwritten _ _ signal => signal.isStop
  | raised signal => signal.isStop
  | tooDeep => true
  | _ => false

/-- The name of the class of a fault. -/
def label : Fault → String
  | tooFewValues _ _ _ => "NotEnoughArgumentsError"
  | unreduced _ => "LogicError"
  | negativeJoin _ _ => "IllegalJoinError"
  | callFailed _ _ _ => "FunctionCallError"
  | unwritten _ _ signal => signal.label
  | notNumeric _ _ => "FunctionCallError"
  | unknownFunction _ => "UnknownFunctionError"
  | joinDisabled => "UnsupportedOperatorError"
  | notAToken _ => "TypeError"
  | notAKind _ => "TypeError"
  | noSource => "TypeError"
  | negativeArity _ _ => "ValueError"
  | notReal _ => "TypeError"
  | notANumeral _ => "ValueError"
  | integerTooLarge => "OverflowError"
  | ratioTooLarge => "OverflowError"
  | signalingNaN => "ValueError"
  | wrongCount _ _ => "ValueError"
  | notArithmetic _ => "KeyError"
  | unhashable _ => "TypeError"
  | noSuchArgument => "IndexError"
  | divisionByZero => "ZeroDivisionError"
  | noProduct _ => "TypeError"
  | sequenceProduct => "TypeError"
  | raised signal => signal.label
  | crafted label _ _ => label
  | tooDeep => "RecursionError"

/-- The text of a fault, or what the attempt to write it raises. -/
def text : Fault → Except Signal String
  | tooFewValues kind required available =>
    .ok s!"{kind.written} requires {required} argument(s), {available} available"
  | unreduced remaining =>
    .ok s!"Expression must reduce to exactly one value, {remaining} remaining"
  | negativeJoin left right =>
    .ok s!"Cannot join negative operands: {Binary64.written left}, {Binary64.written right}"
  | callFailed name text _ => .ok s!"Error calling {name}: {text}"
  | unwritten _ _ signal => signal.text
  | notNumeric name text => .ok s!"Error calling {name}: returned non-numeric value {text}"
  | unknownFunction name => .ok s!"Unknown function: {name}"
  | joinDisabled => .ok "JOIN is disabled; set enable_join to accept it"
  | notAToken text => .ok s!"Not a token: {text}"
  | notAKind text => .ok s!"Not an operation kind: {text}"
  | noSource => .ok "'NoneType' object is not iterable"
  | negativeArity name arity => .ok s!"Function '{name}' has negative arity {arity}"
  | notReal payload =>
    .ok s!"float() argument must be a string or a real number, not '{payload.typeName}'"
  | notANumeral text => .ok s!"could not convert string to float: {text}"
  | integerTooLarge => .ok "int too large to convert to float"
  | ratioTooLarge => .ok "integer division result too large for a float"
  | signalingNaN => .ok "cannot convert signaling NaN to float"
  | wrongCount expected given =>
    if given < expected then
      .ok s!"not enough values to unpack (expected {expected}, got {given})"
    else .ok s!"too many values to unpack (expected {expected})"
  | notArithmetic key => key.written
  | unhashable key => .ok s!"unhashable type: '{key.typeName}'"
  | noSuchArgument => .ok "list index out of range"
  | divisionByZero => .ok "float division by zero"
  | noProduct factor => .ok s!"unsupported operand type(s) for *: 'float' and '{factor.typeName}'"
  | sequenceProduct => .ok "can't multiply sequence by non-int of type 'float'"
  | raised signal => signal.text
  | crafted _ _ text => text
  | tooDeep => .ok "maximum recursion depth exceeded"

/-- The text of a fault that has one. -/
def message (fault : Fault) : String := fault.text.toOption.getD ""

/-! ### Faults that quote something -/

/-- A fault that is raised with a text, if this can be written. -/
def quoting (text : Except Signal String) (fault : String → Fault) : Fault :=
  match text with
  | .ok text => fault text
  | .error signal => raised signal

/-- An order to stop as it passes a call: the exception, whatever it came instead of. -/
def passed : Fault → Fault
  | unwritten _ _ signal => raised signal
  | fault => fault

/-- The fault of a call whose implementation failed. -/
def ofCause (name : String) (cause : Fault) : Fault :=
  match cause.text with
  | .ok text => callFailed name text cause
  | .error signal => unwritten name cause signal

/-- The fault of a call whose implementation returned no number. -/
def ofResult (name : String) (v : Value) : Fault := quoting v.written (notNumeric name)

def ofItem (item : Item) : Fault := quoting item.written notAToken

def ofSubject (subject : Item) : Fault := quoting subject.written notAKind

end Fault

end Reckoner
