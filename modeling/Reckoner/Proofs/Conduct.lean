import Reckoner.Proofs.Arrival
import Reckoner.Routine

/-!
How implementations conduct themselves. Whatever an implementation decides, it works with tables and
evaluators in few ways: it looks at the table at hand, works on it, or evaluates a source, and goes on
from what came of that until it returns or raises; all this it may also do on a table of its own, which
nobody else knows. A `Conduct` says just this, with an arbitrary function for every decision, and gives
an invocation once nested evaluations have a meaning; those are counted down from a depth. Routines
conduct themselves in such a way (`Routine.invoke_eq`, `Routine.evaluateSource_eq`).
-/

namespace Reckoner

variable {ι : Type}

/-- How an implementation goes on, with whatever came of what it did. It returns or raises, it looks at
the table at hand, or it works or evaluates on this table or on one of its own; it evaluates with the
evaluator that is running it or with other options. -/
inductive Conduct (ι : Type) where
  | ends (result : Except Fault Value)
  | reads (next : FunctionTable ι → Conduct ι)
  | operates (own : Option (FunctionTable ι)) (o : Operation ι)
    (next : Outcome (FunctionTable ι) Unit → Conduct ι)
  | evaluates (own : Option (FunctionTable ι)) (other : Option Options)
    (source : Option (List (Step ι))) (next : Outcome (FunctionTable ι) Float → Conduct ι)

/-- A computation on the table at hand or apart from it on another one. It tells its outcome and leaves
it to others to deal with its fault. -/
def Run.apart {α : Type} (x : Run (FunctionTable ι) α) (own : Option (FunctionTable ι)) :
    Run (FunctionTable ι) (Outcome (FunctionTable ι) α) := fun table =>
  { result := .ok (x (own.getD table))
    state := if own.isSome then table else (x table).state
    trace := (x (own.getD table)).trace }

namespace Conduct

/-- Runs a conduct under the options of the evaluator that called it. -/
def run (evaluator : Evaluator ι) (options : Options) : Conduct ι → Run (FunctionTable ι) Value
  | ends result => Run.ofExcept result
  | reads next => do
    let table ← Run.readTable
    run evaluator options (next table)
  | operates own o next => do
    let outcome ← o.run.apart own
    run evaluator options (next outcome)
  | evaluates own other source next => do
    let outcome ← (evaluator (other.getD options) source).apart own
    run evaluator options (next outcome)

def invocation (conduct : ι → List Float → Conduct ι) (evaluator : Evaluator ι)
    (options : Options) : Invocation ι := fun implementation arguments =>
  (conduct implementation arguments).run evaluator options

/-- The evaluator of such implementations, with evaluations at most `depth` deep. -/
def evaluator (conduct : ι → List Float → Conduct ι) : Nat → Evaluator ι
  | 0 => fun _ _ => Run.fail .tooDeep
  | depth + 1 => fun options =>
    evaluate (invocation conduct (evaluator conduct depth) options) options

end Conduct

/-! ### Routines -/

namespace Routine

/-- How a routine goes on after something that may be refused. -/
def orFails {α : Type} (next : α → Conduct Routine) (outcome : Outcome (FunctionTable Routine) α) :
    Conduct Routine :=
  match outcome.result with
  | .ok a => next a
  | .error fault => .ends (.error fault)

def conduct : Routine → List Float → Conduct Routine
  | constant v, _ => .ends (.ok v)
  | argument i, arguments => .ends ((argumentAt arguments i).map .float)
  | count, arguments => .ends (.ok (.int arguments.length))
  | sum, arguments => .ends (.ok (.float (arguments.foldl (· + ·) 0)))
  | digits, arguments => .ends (.ok (.float (arguments.foldl (fun acc a => acc * 10 + a) 0)))
  | divide, arguments => .ends do
    let a ← argumentAt arguments 0
    let b ← argumentAt arguments 1
    (plainQuotient a b).map .float
  | scale v, arguments => .ends do
    let a ← argumentAt arguments 0
    Value.scaled a v
  | arithmetic key, arguments => .ends ((key.applyArithmetic arguments).map .float)
  | join, arguments => .ends ((onTwo joined arguments).map .float)
  | list, arguments => .ends (.ok (.list (arguments.map .float)))
  | raise label arguments, _ => .ends (.error (exception label arguments))
  | mutate next, arguments => conduct next (mutated arguments)
  | evaluate source, _ =>
    .evaluates none none (some source) (orFails fun x => .ends (.ok (.float x)))
  | register r next, arguments =>
    .operates none (.register r) (orFails fun _ => conduct next arguments)
  | clear next, arguments => .operates none .clear (orFails fun _ => conduct next arguments)

theorem run_orFails {α : Type} (evaluator : Evaluator Routine) (options : Options)
    (x : Run (FunctionTable Routine) α) (next : α → Conduct Routine) :
    (x.apart none >>= fun outcome => (orFails next outcome).run evaluator options) =
      x >>= fun a => (next a).run evaluator options := by
  funext table
  rw [Run.bind_of_ok (x := x.apart none) (a := x table) rfl, orFails]
  cases hresult : (x table).result with
  | error fault =>
      rw [Run.bind_of_error hresult]
      simp [Run.apart, Conduct.run, Run.ofExcept, Run.fail]
  | ok a =>
      rw [Run.bind_of_ok hresult]
      rfl

theorem runWith_eq (evaluator : Evaluator Routine) (options : Options) :
    ∀ (routine : Routine) (arguments : List Float),
      runWith (fun source => evaluator options (some source)) routine arguments =
        (conduct routine arguments).run evaluator options
  | constant _, _ => rfl
  | argument _, _ => rfl
  | count, _ => rfl
  | sum, _ => rfl
  | digits, _ => rfl
  | divide, _ => rfl
  | scale _, _ => rfl
  | arithmetic _, _ => rfl
  | join, _ => rfl
  | list, _ => rfl
  | raise _ _, _ => rfl
  | mutate next, arguments => runWith_eq evaluator options next (mutated arguments)
  | evaluate source, _ => by
      rw [conduct, Conduct.run, run_orFails, runWith]
      rfl
  | register r next, arguments => by
      have hnext := runWith_eq evaluator options next arguments
      rw [conduct, Conduct.run, run_orFails, runWith, hnext]
      rfl
  | clear next, arguments => by
      have hnext := runWith_eq evaluator options next arguments
      rw [conduct, Conduct.run, run_orFails, runWith, hnext]
      rfl

/-- Routines are run as they conduct themselves. -/
theorem invoke_eq (options : Options) (depth : Nat) :
    invoke options depth =
      Conduct.invocation conduct (Conduct.evaluator conduct depth) options := by
  induction depth with
  | zero =>
      funext routine arguments
      exact runWith_eq (Conduct.evaluator conduct 0) options routine arguments
  | succ depth ih =>
      funext routine arguments
      rw [invoke, ih]
      exact runWith_eq (Conduct.evaluator conduct (depth + 1)) options routine arguments

theorem evaluateSource_eq : evaluateSource = Conduct.evaluator conduct (nestingLimit + 1) := by
  funext options source
  rw [evaluateSource, invoke_eq]
  rfl

end Routine

end Reckoner
