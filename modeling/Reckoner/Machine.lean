import Reckoner.Arithmetic
import Reckoner.Registry
import Reckoner.Run
import Reckoner.Value.Operand

/-!
The machine that reduces a token stream. It holds the values that are not used yet and the operators
that are not reduced yet, both with the latest one first. A number joins the values. An operator is
looked up, makes the pending operators above the first one that binds looser reduce, one after the
other, and then joins the pending ones. A reduction takes as many values as the operator took when
it was read, and a call runs whatever implementation the table holds when it is reduced.

The machine is the same for all kinds of implementations and of states: how an implementation is run is
a parameter.
-/

namespace Reckoner

/-- How implementations run: on their arguments, in the state at hand, to a value or a fault. -/
abbrev Invocation (ι : Type) (σ : Type := FunctionTable ι) : Type := ι → List Float → Run σ Value

/-- An operator that is read and not reduced yet: how many operators were read before it, and what was
looked up then. -/
structure Pending where
  position : Nat
  kind : Kind
  operator : Operator

/-- The machine between two items. -/
structure Machine where
  values : List Float
  pending : List Pending
  operatorsRead : Nat

namespace Machine

variable {ι σ : Type} [Store σ ι]

def initial : Machine := ⟨[], [], 0⟩

/-- Calls a user function. A fault of its implementation is logged first and then wrapped, unless it is
an order to stop; what comes of the wrapping depends on whether its text can be written. -/
def call (invoke : Invocation ι σ) (name : String) (arguments : List Float) : Run σ Float := do
  let d ← Run.definition name
  match ← (invoke d.implementation arguments).asCall name arguments with
  | .ok value => Run.ofExcept (value.asResult name)
  | .error cause =>
    if cause.isStop then Run.fail cause.passed
    else do
      Run.log (.implementationRaised name cause)
      Run.fail (.ofCause name cause)

/-- Applies a reduced operator to its arguments; most markers give no value. -/
def apply (invoke : Invocation ι σ) (arguments : List Float) : Kind → Run σ (Option Float)
  | .arithmetic op => Run.ofExcept ((op.apply arguments).map some)
  | .control marker => Run.ofExcept (marker.apply arguments)
  | .callStart name => do
    let x ← call invoke name arguments
    return some x
  | .callEnd => return none
  | .comma => return none

/-- Reduces one pending operator: takes its values, applies it and puts back what it gives. -/
def reduce (invoke : Invocation ι σ) (values : List Float) (p : Pending) : Run σ (List Float) := do
  if values.length < p.operator.arity then
    Run.fail (.tooFewValues p.kind p.operator.arity values.length)
  else
    let arguments := (values.take p.operator.arity).reverse
    Run.note (.reduced p.position p.kind arguments)
    let given ← apply invoke arguments p.kind
    return given.toList ++ values.drop p.operator.arity

/-- The pending operators that an incoming operator makes reduce. -/
def due (incoming : Operator) (pending : List Pending) : List Pending :=
  pending.takeWhile fun p => incoming.unwinds p.operator

/-- The pending operators that an incoming operator leaves alone. -/
def kept (incoming : Operator) (pending : List Pending) : List Pending :=
  pending.dropWhile fun p => incoming.unwinds p.operator

/-- Reads an operator: looks it up, reduces what is due and adds it to the pending ones. -/
def readOperator (invoke : Invocation ι σ) (options : Options) (m : Machine) (kind : Kind) :
    Run σ Machine := do
  let table ← Run.readOperators
  let operator ← Run.ofExcept (kind.lookup options table)
  let values ← (due operator m.pending).foldlM (reduce invoke) m.values
  return ⟨values, ⟨m.operatorsRead, kind, operator⟩ :: kept operator m.pending, m.operatorsRead + 1⟩

def readToken (invoke : Invocation ι σ) (options : Options) (m : Machine) : Token → Run σ Machine
  | .number x => return { m with values := x :: m.values }
  | .operator kind => m.readOperator invoke options kind

/-- The value of a machine at the end of its stream: the only one it holds. -/
def result (m : Machine) : Except Fault Float :=
  match m.values with
  | [x] => .ok x
  | values => .error (.unreduced values.length)

end Machine

end Reckoner
