import Reckoner.Proofs.Reduction
import Reckoner.Proofs.Stores
import Reckoner.Workspace

/-!
What implementations may do in a workspace. Whatever an implementation decides, it deals with tables and
evaluators in few ways: it looks at the table at hand or asks the evaluator that is running it, or it
refers to some table or object of the workspace, looks there or gives a command; and it goes on from what
came of that until it returns or raises. A `Plan` says just this, with an arbitrary function for every
decision. Plans give a workspace its evaluators once nested evaluations have a meaning; those are counted
down from a depth. Routines follow plans that refer to nothing but what is at hand
(`Routine.routineEvaluators_eq`).
-/

namespace Reckoner

variable {ι ω : Type}

/-- How an implementation goes on, with whatever came of what it did. It returns or raises, it looks at
the table at hand or at that of a name, it asks the evaluator that is running it, or it gives a command
to the workspace. -/
inductive Plan (ι : Type) where
  | ends (result : Except Fault Value)
  | reads (next : FunctionTable ι → Plan ι)
  | asks (request : Request ι) (next : Except Fault Answer → Plan ι)
  | looks (name : TableName) (next : Option (FunctionTable ι) → Plan ι)
  | performs (command : Command ι) (next : Except Fault (Option Answer) → Plan ι)

/-- How an implementation refers to the table of a place: it wants to know what is there, or it only
changes it. -/
inductive Reference where
  | looks (place : Nat)
  | changes (place : Nat)
  deriving DecidableEq

/-- Hosts that take down how implementations refer to tables. -/
class Watched (ω : Type) (ι : outParam Type) extends Host ω ι where
  refer : List Reference → ω → ω

instance : Watched (Workspace ι) ι where
  refer _ w := w

/-- A computation that leaves it to others to deal with its fault. -/
def Run.attempt {σ α : Type} (x : Run σ α) : Run σ (Except Fault α) := fun s =>
  ⟨.ok (x s).result, (x s).state, (x s).trace⟩

/-- How a request to an evaluator refers to its tables. -/
def EvaluatorObject.references (e : EvaluatorObject) : Request ι → List Reference
  | .register _ => [.changes e.place]
  | .clear => [.changes e.place]
  | _ => [.looks e.place, .looks e.registry.place]

/-- Carries out a request by an evaluator. -/
def EvaluatorObject.run [Host ω ι] (evaluators : Workspace.Evaluators ι ω) (e : EvaluatorObject)
    (request : Request ι) : Run ω Answer :=
  letI : Store ω ι := e.store
  request.run (evaluators e) e.options e.registry.options

namespace Workspace

section Asking

variable [Host ω ι] {evaluators : Evaluators ι ω} {s : ω} {target : Target}

theorem make_of_some {object : Workspace ι → Option (Workspace ι)} {w : Workspace ι}
    (h : object (Host.workspace s) = some w) :
    make object s = ⟨.ok (some .nothing), Host.put w s, []⟩ := by
  simp only [make, h]

theorem make_of_none {object : Workspace ι → Option (Workspace ι)}
    (h : object (Host.workspace s) = none) : make object s = ⟨.ok none, s, []⟩ := by
  simp only [make, h]

/-- A request is carried out by whoever deals with it. -/
theorem performWith_of_resolve {e : EvaluatorObject} {w : Workspace ι}
    (h : (Host.workspace s).resolve target = some (e, w)) (request : Request ι) :
    performWith evaluators (.ask target request) s =
      let outcome := e.run evaluators request (Host.put w s)
      ⟨outcome.result.map some, outcome.state, outcome.trace⟩ := by
  simp only [performWith, h, map_eq_pure_bind, Run.bind_pure_apply, EvaluatorObject.run]

theorem performWith_of_resolve_none (h : (Host.workspace s).resolve target = none)
    (request : Request ι) : performWith evaluators (.ask target request) s = ⟨.ok none, s, []⟩ := by
  simp only [performWith, h]

end Asking

/-- How a command refers to tables. -/
def references (w : Workspace ι) : Command ι → List Reference
  | .ask target request =>
    match w.resolve target with
    | some (e, _) => e.references request
    | none => []
  | _ => []

variable [Watched ω ι]

def refer (references : Workspace ι → List Reference) : Run ω Unit := fun s =>
  ⟨.ok (), Watched.refer (references (Host.workspace s)) s, []⟩

def look (name : TableName) : Run ω (Option (FunctionTable ι)) := fun s =>
  ⟨.ok (((Host.workspace s).place? name).map (Host.workspace s).tableAt), s, []⟩

end Workspace

namespace Plan

variable [Watched ω ι]

/-- Runs a plan as part of an evaluator. -/
def run (evaluators : Workspace.Evaluators ι ω) (e : EvaluatorObject) : Plan ι → Run ω Value
  | ends result => Run.ofExcept result
  | reads next =>
    letI : Store ω ι := e.store
    do
      let table ← Run.readTable
      run evaluators e (next table)
  | asks request next => do
    let answer ← (e.run evaluators request).attempt
    run evaluators e (next answer)
  | looks name next => do
    Workspace.refer fun w => (w.place? name).toList.map .looks
    let table ← Workspace.look name
    run evaluators e (next table)
  | performs command next => do
    Workspace.refer fun w => w.references command
    let answer ← (Workspace.performWith evaluators command).attempt
    run evaluators e (next answer)

/-- The evaluators whose implementations follow plans, with evaluations at most `depth` deep. -/
def evaluators (plan : ι → List Float → Plan ι) : Nat → Workspace.Evaluators ι ω
  | 0 => fun _ _ => Run.fail .tooDeep
  | depth + 1 => fun e =>
    letI : Store ω ι := e.store
    Reckoner.evaluate (fun implementation arguments =>
      (plan implementation arguments).run (evaluators plan depth) e) e.registry.options

end Plan

/-! ### Routines -/

namespace Routine

/-- How a routine goes on after a request that may fail. -/
def unlessFails (next : Answer → Plan Routine) : Except Fault Answer → Plan Routine
  | .ok answer => next answer
  | .error fault => .ends (.error fault)

def ofAnswer : Answer → Value
  | .value x => .float x
  | _ => .null

def plan : Routine → List Float → Plan Routine
  | constant v, _ => .ends (.ok v)
  | argument i, arguments => .ends ((argumentAt arguments i).map .float)
  | count, arguments => .ends (.ok (.int arguments.length))
  | sum, arguments => .ends (.ok (.float (arguments.foldl (· + ·) 0)))
  | digits, arguments => .ends (.ok (.float (arguments.foldl (fun acc a => acc * 10 + a) 0)))
  | divide, arguments => .ends do
    let a ← argumentAt arguments 0
    let b ← argumentAt arguments 1
    (plainQuotient a b).map .float
  | scale v, arguments => .ends do
    let a ← argumentAt arguments 0
    Value.scaled a v
  | arithmetic key, arguments => .ends ((key.applyArithmetic arguments).map .float)
  | join, arguments => .ends ((onTwo joined arguments).map .float)
  | list, arguments => .ends (.ok (.list (arguments.map .float)))
  | raise label arguments, _ => .ends (.error (exception label arguments))
  | mutate next, arguments => plan next (mutated arguments)
  | evaluate source, _ =>
    .asks (.evaluate (some source)) (unlessFails fun answer => .ends (.ok (ofAnswer answer)))
  | register r next, arguments => .asks (.register r) (unlessFails fun _ => plan next arguments)
  | clear next, arguments => .asks .clear (unlessFails fun _ => plan next arguments)

variable [Watched ω Routine] (evaluators : Workspace.Evaluators Routine ω) (e : EvaluatorObject)

theorem run_unlessFails (x : Run ω Answer) (next : Answer → Plan Routine) :
    (x.attempt >>= fun answer => (unlessFails next answer).run evaluators e) =
      x >>= fun answer => (next answer).run evaluators e := by
  funext s
  rw [Run.bind_of_ok (x := x.attempt) (a := (x s).result) rfl]
  cases hresult : (x s).result with
  | error fault =>
      rw [Run.bind_of_error hresult]
      simp [Run.attempt, unlessFails, Plan.run]
  | ok answer =>
      rw [Run.bind_of_ok hresult]
      rfl

theorem runWith_eq_run [store : Store ω Routine] (hstore : store = e.store) :
    ∀ (routine : Routine) (arguments : List Float),
      runWith (fun source => evaluators e (some source)) routine arguments =
        (plan routine arguments).run evaluators e
  | constant _, _ => rfl
  | argument _, _ => rfl
  | count, _ => rfl
  | sum, _ => rfl
  | digits, _ => rfl
  | divide, _ => rfl
  | scale _, _ => rfl
  | arithmetic _, _ => rfl
  | join, _ => rfl
  | list, _ => rfl
  | raise _ _, _ => rfl
  | mutate next, arguments => runWith_eq_run hstore next (mutated arguments)
  | evaluate source, _ => by
      rw [plan, Plan.run, run_unlessFails, EvaluatorObject.run, ← hstore, runWith, Request.run, bind_assoc]
      rfl
  | register r next, arguments => by
      have hnext := runWith_eq_run hstore next arguments
      rw [plan, Plan.run, run_unlessFails, EvaluatorObject.run, ← hstore, runWith, hnext, Request.run,
        bind_assoc]
      rfl
  | clear next, arguments => by
      have hnext := runWith_eq_run hstore next arguments
      rw [plan, Plan.run, run_unlessFails, EvaluatorObject.run, ← hstore, runWith, hnext, Request.run,
        bind_assoc]
      rfl

/-- Routines are run as they plan to. -/
theorem invoke_eq_run [store : Store ω Routine] (hstore : store = e.store) (depth : Nat) :
    (invoke e.registry.options depth : Invocation Routine ω) = fun routine arguments =>
      (plan routine arguments).run (Plan.evaluators plan depth) e := by
  induction depth with
  | zero =>
      funext routine arguments
      exact runWith_eq_run (Plan.evaluators plan 0) e hstore routine arguments
  | succ depth ih =>
      funext routine arguments
      rw [invoke, ih, ← runWith_eq_run (Plan.evaluators plan (depth + 1)) e hstore, hstore]
      rfl

/-- The evaluators of routines follow their plans. -/
theorem routineEvaluators_eq :
    (Workspace.routineEvaluators : Workspace.Evaluators Routine ω) =
      Plan.evaluators plan (nestingLimit + 1) := by
  funext e source
  have hinvoke := @invoke_eq_run ω _ e e.store rfl nestingLimit
  exact congrArg (fun invoke => @Reckoner.evaluate _ _ e.store invoke e.registry.options source) hinvoke

end Routine

theorem Workspace.perform_eq :
    perform = performWith (Plan.evaluators Routine.plan (Routine.nestingLimit + 1)) :=
  congrArg performWith Routine.routineEvaluators_eq

end Reckoner
