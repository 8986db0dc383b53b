import Reckoner.Evaluation

/-!
Routines: implementations of user functions that are given as data. They compute on their arguments,
return constants, raise exceptions, change the function table, or evaluate a stream of their own
with the evaluator that is running them. Nested evaluations are counted down from a depth that is
chosen when the evaluation starts.
-/

namespace Reckoner

/-- An implementation as data. Most return something: a value, an argument, counted from the front or,
if negative, from the back, their number, their sum, the number that has them for decimal digits, the
quotient of the first two, refusing a zero, the product of the first one and a value, what the arithmetic
operator that an item names or joining makes of them, or their list. The others raise an exception of a
class with arguments for it, add an argument, overwrite the first one and go on, evaluate a source, or
work on the table and go on. -/
inductive Routine where
  | constant (v : Value)
  | argument (i : Int)
  | count
  | sum
  | digits
  | divide
  | scale (v : Value)
  | arithmetic (key : Item)
  | join
  | list
  | raise (label : String) (arguments : List Value)
  | mutate (next : Routine)
  | evaluate (source : List (Step Routine))
  | register (r : Registration Routine) (next : Routine)
  | clear (next : Routine)

namespace Routine

/-! ### Exceptions -/

/-- The classes that are orders to stop. -/
def stopLabels : List String :=
  ["KeyboardInterrupt", "SystemExit", "GeneratorExit", "BaseException"]

/-- What is raised for the text of an encoding error that does not lie in its text. -/
def brokenText : Signal where
  label := "SystemError"
  isStop := false
  text := .ok "<class 'str'> returned a result with an exception set"

/-- The text of an encoding error, which quotes a character if it is about one only. -/
def encodingText (encoding subject : String) (start stop : Int) (reason : String) :
    Except Signal String :=
  if start < subject.length ∧ stop = start + 1 then
    match subject.toList[start.toNat]?, decide (0 ≤ start) with
    | some c, true =>
      let code := String.ofList (Text.codeEscape c.toNat)
      .ok s!"'{encoding}' codec can't encode character '{code}' in position {start}: {reason}"
    | _, _ => .error brokenText
  else
    let last := stop - 1
    .ok s!"'{encoding}' codec can't encode characters in position {start}-{last}: {reason}"

/-- The text of an exception with arguments: nothing, the only argument, or the row of them, unless its
class has a text of its own. -/
def exceptionText : String → List Value → Except Signal String
  | _, [] => .ok ""
  | "KeyError", [key] => key.written
  | "UnicodeEncodeError", [.text encoding, .text subject, .int start, .int stop, .text reason] =>
    encodingText encoding subject start stop reason
  | _, [v] => v.plain
  | _, vs => Value.row vs

/-- The text that an error of the library is made with. -/
def errorText : String → List Value → Except Signal String
  | "NotEnoughArgumentsError", [operator, required, available] => do
    let operator ← operator.written
    let required ← required.plain
    let available ← available.plain
    return s!"{operator} requires {required} argument(s), {available} available"
  | "LogicError", [remaining] => do
    let remaining ← remaining.plain
    return s!"Expression must reduce to exactly one value, {remaining} remaining"
  | "IllegalJoinError", [left, right] => do
    let left ← left.written
    let right ← right.written
    return s!"Cannot join negative operands: {left}, {right}"
  | "FunctionCallError", [name, message] => do
    let name ← name.plain
    let message ← message.plain
    return s!"Error calling {name}: {message}"
  | "UnknownFunctionError", [name] => do
    let name ← name.plain
    return s!"Unknown function: {name}"
  | label, arguments => exceptionText label arguments

/-- The classes of the library whose errors do not reject a stream. -/
def usageLabels : List String := ["UnknownFunctionError", "UnsupportedOperatorError"]

/-- The exception of a class with arguments. An error of the library is made with its text. -/
def exception (label : String) (arguments : List Value) : Fault :=
  if foreign : label ∉ libraryLabels then
    .raised ⟨label, stopLabels.contains label, exceptionText label arguments, foreign⟩
  else
    .quoting (errorText label arguments) fun text =>
      .crafted label (!usageLabels.contains label) (.ok text)

/-! ### Results -/

def argumentAt (arguments : List Float) (i : Int) : Except Fault Float :=
  let place := if i < 0 then i + arguments.length else i
  if place < 0 then .error .noSuchArgument
  else
    match arguments[place.toNat]? with
    | some x => .ok x
    | none => .error .noSuchArgument

/-- A quotient without recovery. -/
def plainQuotient (a b : Float) : Except Fault Float :=
  if b == 0 then .error .divisionByZero else .ok (a / b)

/-- The arguments with one more at the end and another one in front. -/
def mutated (arguments : List Float) : List Float := 77 :: (arguments ++ [99]).tail

variable {σ : Type} [Store σ Routine]

/-- Runs a routine, where `nested` evaluates the sources in it. -/
def runWith (nested : List (Step Routine) → Run σ Float) :
    Routine → List Float → Run σ Value
  | constant v, _ => return v
  | argument i, arguments => Run.ofExcept ((argumentAt arguments i).map .float)
  | count, arguments => return .int arguments.length
  | sum, arguments => return .float (arguments.foldl (· + ·) 0)
  | digits, arguments => return .float (arguments.foldl (fun acc a => acc * 10 + a) 0)
  | divide, arguments => Run.ofExcept do
    let a ← argumentAt arguments 0
    let b ← argumentAt arguments 1
    (plainQuotient a b).map .float
  | scale v, arguments => Run.ofExcept do
    let a ← argumentAt arguments 0
    Value.scaled a v
  | arithmetic key, arguments => Run.ofExcept ((key.applyArithmetic arguments).map .float)
  | join, arguments => Run.ofExcept ((onTwo joined arguments).map .float)
  | list, arguments => return .list (arguments.map .float)
  | raise label arguments, _ => Run.fail (exception label arguments)
  | mutate next, arguments => runWith nested next (mutated arguments)
  | evaluate source, _ => do
    let x ← nested source
    return .float x
  | register r next, arguments => do
    Run.register r
    runWith nested next arguments
  | clear next, arguments => do
    Run.clear
    runWith nested next arguments

/-- Runs routines with the options of the evaluator and evaluations nested at most `depth` deep. -/
def invoke (options : Options) : Nat → Invocation Routine σ
  | 0 => runWith fun _ => Run.fail .tooDeep
  | depth + 1 => runWith (evaluateSteps (invoke options depth) options)

/-- How deep evaluations may be nested in the evaluation that starts them. -/
def nestingLimit : Nat := 1000

def evaluateSource : Evaluator Routine σ := fun options source =>
  Reckoner.evaluate (invoke options nestingLimit) options source

end Routine

end Reckoner
