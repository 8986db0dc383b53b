import Reckoner.FunctionTable
import Reckoner.Trace

/-!
Computations that work on a state with function tables, leave a trace and end in a result or a fault.
Whatever was done to the state and whatever was traced before a fault stays. A single table is such a
state, and so is a whole workspace for an evaluator that refers to tables in it.
-/

namespace Reckoner

/-- States in which functions are found and changed. Operators are looked up in a table, too, which
need not be the same one. -/
class Store (σ : Type) (ι : outParam Type) where
  functions : σ → FunctionTable ι
  operators : σ → FunctionTable ι
  change : Change ι → σ → σ

instance {ι : Type} : Store (FunctionTable ι) ι where
  functions table := table
  operators table := table
  change c table := table.change c

/-- How a computation ended, and the state as it left it. -/
structure Outcome (σ α : Type) where
  result : Except Fault α
  state : σ
  trace : List Event

def Run (σ α : Type) : Type := σ → Outcome σ α

namespace Run

section Basics

variable {σ α β : Type}

/-- A result at once. -/
def done (a : α) : Run σ α := fun s => ⟨.ok a, s, []⟩

/-- A fault at once. -/
def fail (fault : Fault) : Run σ α := fun s => ⟨.error fault, s, []⟩

/-- One computation, and unless it fails the one that its result asks for. -/
def andThen (first : Run σ α) (next : α → Run σ β) : Run σ β := fun s =>
  let one := first s
  match one.result with
  | .error fault => ⟨.error fault, one.state, one.trace⟩
  | .ok a =>
    let two := next a one.state
    ⟨two.result, two.state, one.trace ++ two.trace⟩

instance : Monad (Run σ) where
  pure := done
  bind := andThen

/-- A result or fault that is already there. -/
def ofExcept : Except Fault α → Run σ α
  | .ok a => done a
  | .error fault => fail fault

def note (event : Event) : Run σ Unit := fun s => ⟨.ok (), s, [event]⟩

def log (record : Record) : Run σ Unit := note (.logged record)

/-- A computation as the call of a function: what it does stands inside one event, and how it ends
is for the caller to judge. -/
def asCall (name : String) (arguments : List Float) (body : Run σ α) : Run σ (Except Fault α) :=
  fun s =>
    let outcome := body s
    ⟨.ok outcome.result, outcome.state, [.called name arguments outcome.trace]⟩

/-- Logs the fault of a computation if it rejects the token stream. -/
def reportingRejection (body : Run σ α) : Run σ α := fun s =>
  let outcome := body s
  match outcome.result with
  | .error fault =>
    if fault.rejectsStream then
      { outcome with trace := outcome.trace ++ [.logged (.rejected fault)] }
    else outcome
  | .ok _ => outcome

end Basics

section Tables

variable {σ ι : Type} [Store σ ι]

def readTable : Run σ (FunctionTable ι) := fun s => ⟨.ok (Store.functions s), s, []⟩

def readOperators : Run σ (FunctionTable ι) := fun s => ⟨.ok (Store.operators s), s, []⟩

def change (c : Change ι) : Run σ Unit := fun s => ⟨.ok (), Store.change c s, []⟩

/-- Registers a function and logs whether its name was new. -/
def register (r : Registration ι) : Run σ Unit := do
  let d ← ofExcept r.definition
  let table ← readTable
  log (if table.contains d.name then .replaced d.name d.arity else .registered d.name d.arity)
  change (.insert d)

def clear : Run σ Unit := change .clear

def definition (name : String) : Run σ (Definition ι) := do
  let table ← readTable
  ofExcept (table.get name)

end Tables

end Run

end Reckoner
