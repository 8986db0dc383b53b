import Reckoner.Fault

/-!
What a run leaves behind besides its result: a trace of events in the order in which they happened.
The events of an implementation stand inside the event of its call, so the top level of a trace
belongs to the run itself and everything nested to the runs inside it. Calls and log records are
read off a trace.
-/

namespace Reckoner

inductive Level where
  | debug
  | warning
  deriving DecidableEq, Repr

/-- Which part of the library a record comes from. -/
inductive Channel where
  | functions
  | evaluator
  deriving DecidableEq, Repr

/-- A log record: a function was registered under a new name or under one that it has replaced, the
implementation of a function failed, or a token stream was rejected. -/
inductive Record where
  | registered (name : String) (arity : Nat)
  | replaced (name : String) (arity : Nat)
  | implementationRaised (name : String) (cause : Fault)
  | rejected (fault : Fault)

namespace Record

def level : Record → Level
  | implementationRaised _ _ => .warning
  | _ => .debug

def channel : Record → Channel
  | registered _ _ => .functions
  | replaced _ _ => .functions
  | implementationRaised _ _ => .evaluator
  | rejected _ => .evaluator

def message : Record → String
  | registered name arity => s!"Registered function {name} (arity {arity})"
  | replaced name arity => s!"Replacing function {name} (arity {arity})"
  | implementationRaised name cause => s!"User function {name} raised {cause.label}"
  | rejected fault => s!"Rejected token stream: {fault.message}"

end Record

/-- One event of a run: an item was taken from the source, the operator read as number `position` gave
up its place and took its values, a user function was called, whose implementation did what is `inner`,
or a record was logged. -/
inductive Event where
  | taken
  | reduced (position : Nat) (kind : Kind) (arguments : List Float)
  | called (name : String) (arguments : List Float) (inner : List Event)
  | logged (record : Record)

namespace Event

mutual

/-- The calls in an event, in the order in which they were entered. -/
def calls : Event → List (String × List Float)
  | called name arguments inner => (name, arguments) :: callsIn inner
  | _ => []

def callsIn : List Event → List (String × List Float)
  | [] => []
  | e :: es => calls e ++ callsIn es

end

mutual

/-- The records in an event, in their order. -/
def records : Event → List Record
  | called _ _ inner => recordsIn inner
  | logged record => [record]
  | _ => []

def recordsIn : List Event → List Record
  | [] => []
  | e :: es => records e ++ recordsIn es

end

def isTaken : Event → Bool
  | taken => true
  | _ => false

/-- How many items the run itself took from its source. -/
def takenIn (trace : List Event) : Nat := trace.countP isTaken

end Event

end Reckoner
