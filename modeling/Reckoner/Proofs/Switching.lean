import Reckoner.Proofs.Balance
import Reckoner.Proofs.Joining
import Reckoner.Proofs.LogTrace

/-!
What switching joining on changes. The options have a say in one place only, the look-up of a join:
all other operators are looked up alike, reductions ask for no options, and an implementation comes by
those of its evaluator only through the sources that it has evaluated. So two runs under any two
options stay together, moment by moment, until one of them reads a join, itself or in an evaluation
inside of it (`Conduct.evaluator_congr`, `Reached.twin`).
-/

namespace Reckoner

variable {ι : Type}

/-! ### One moment under two options -/

theorem Kind.lookup_congr {k : Kind} (h : k ≠ .control .join) (options options' : Options)
    (table : FunctionTable ι) : k.lookup options' table = k.lookup options table := by
  cases k with
  | control marker =>
      cases marker with
      | join => exact absurd rfl h
      | _ => rfl
  | _ => rfl

/-- What a reduction does depends on the invocation only through the call that it makes. -/
theorem Machine.reduce_congr {invoke invoke' : Invocation ι} {values : List Float} {p : Pending}
    {table : FunctionTable ι}
    (h : ∀ name d, p.kind = .callStart name → p.operator.arity ≤ values.length →
      table.get name = .ok d →
      invoke' d.implementation (values.take p.operator.arity).reverse table =
        invoke d.implementation (values.take p.operator.arity).reverse table) :
    reduce invoke' values p table = reduce invoke values p table := by
  rcases Nat.lt_or_ge values.length p.operator.arity with hlt | hle
  · rw [reduce_of_lt hlt, reduce_of_lt hlt]
  · have happly : apply invoke' (values.take p.operator.arity).reverse p.kind table =
        apply invoke (values.take p.operator.arity).reverse p.kind table := by
      cases hkind : p.kind with
      | callStart name =>
          rw [apply_callStart rfl, apply_callStart rfl]
          cases hget : table.get name with
          | error fault =>
              obtain ⟨hnone, _⟩ := FunctionTable.get_eq_error hget
              rw [call_of_find_none _ hnone, call_of_find_none _ hnone]
          | ok d => rw [call_of_get _ hget (h name d hkind hle hget), call_of_get _ hget rfl]
      | _ => rfl
    rw [reduce_of_le hle happly, reduce_of_le hle rfl]

namespace Moment

/-- What is done next depends on the options and the invocation only through one look-up or one
reduction. -/
theorem next_congr {invoke invoke' : Invocation ι} {options options' : Options} {c : Moment ι}
    {table : FunctionTable ι}
    (hlookup : ∀ k, c.Reads k → k.lookup options' table = k.lookup options table)
    (hreduce : ∀ p, c.Reduces p → Machine.reduce invoke' c.machine.values p table =
      Machine.reduce invoke c.machine.values p table) :
    c.next invoke' options' table = c.next invoke options table := by
  fun_cases next invoke options c with
  | case2 m item rest =>
      rw [next, Run.bind_of_ok (a := ()) rfl, Run.bind_of_ok (a := ()) rfl]
      cases htoken : item.token with
      | error fault => rfl
      | ok token =>
          cases token with
          | number x => rfl
          | operator k =>
              obtain rfl := Item.eq_of_token htoken
              have hfound : k.lookup options' (Run.note .taken table).state =
                  k.lookup options (Run.note .taken table).state := hlookup k ⟨rfl, rest, rfl⟩
              simp only [Run.ofExcept_ok, pure_bind, Run.readOperators_bind, hfound]
  | case6 values p pending n k op rest hunwinds =>
      have hreduced : Machine.reduce invoke' values p table = Machine.reduce invoke values p table :=
        hreduce p ⟨(k, op), rfl, hunwinds, rfl⟩
      rw [next, if_pos hunwinds, Run.bind_pure_apply, Run.bind_pure_apply, hreduced]
  | case7 values p pending n k op rest hunwinds => rw [next, if_neg hunwinds]
  | _ => rfl

theorem Reads.next_eq {c : Moment ι} {k : Kind} (h : c.Reads k) (invoke : Invocation ι)
    (options : Options) (table : FunctionTable ι) :
    c.next invoke options table = ⟨(k.lookup options table).map fun operator =>
      ⟨c.machine, some (k, operator), c.rest.tail⟩, table, [.taken]⟩ := by
  obtain ⟨m, incoming, rest⟩ := c
  obtain ⟨rfl, rest, rfl⟩ := h
  rw [next, Run.bind_of_ok (a := ()) rfl]
  simp only [Item.token, Run.ofExcept_ok, pure_bind, Run.readOperators_bind, Run.bind_pure_apply,
    Run.ofExcept_result, Run.ofExcept_state, Run.ofExcept_trace]
  rfl

end Moment

/-! ### Two runs -/

namespace Reached

variable {invoke invoke' : Invocation ι} {options options' : Options} {source : List (Step ι)}
  {table : FunctionTable ι}

/-- Another invocation under other options would do the same next. -/
def Agrees (invoke' : Invocation ι) (options' : Options)
    (now : Reached invoke options source table) : Prop :=
  now.moment.next invoke' options' now.present = now.next

theorem after_congr {n : Nat}
    (h : ∀ now : Reached invoke options source table, now.time < n → now.Agrees invoke' options') :
    (Moment.start source).after invoke' options' n table =
      (Moment.start source).after invoke options n table := by
  induction n with
  | zero => rfl
  | succ n ih =>
      have hbefore := ih fun now hlt => h now (Nat.lt_succ_of_lt hlt)
      rw [Moment.after, Moment.after]
      generalize hreading : (Moment.start source).after invoke options n table = before at hbefore
      obtain ⟨result, present, trace⟩ := before
      cases result with
      | error fault =>
          rw [Run.bind_of_error (congrArg Outcome.result hbefore),
            Run.bind_of_error (congrArg Outcome.result hreading), hbefore, hreading]
      | ok c =>
          have hnext : c.next invoke' options' present = c.next invoke options present :=
            h ⟨n, c, present, trace, hreading⟩ (Nat.lt_succ_self n)
          rw [Run.bind_of_ok (congrArg Outcome.result hbefore),
            Run.bind_of_ok (congrArg Outcome.result hreading), hbefore, hreading, hnext]

/-- The moment of another run that has done the same so far. -/
def twin (now : Reached invoke options source table)
    (h : ∀ earlier : Reached invoke options source table, earlier.time < now.time →
      earlier.Agrees invoke' options') : Reached invoke' options' source table where
  time := now.time
  moment := now.moment
  present := now.present
  trace := now.trace
  arrives := (after_congr h).trans now.arrives

/-- Runs that agree at every moment have the same outcome. -/
theorem evaluate_congr
    (h : ∀ now : Reached invoke options source table, now.Agrees invoke' options') :
    evaluate invoke' options' (some source) table = evaluate invoke options (some source) table := by
  obtain ⟨last, hfinal | ⟨fault, hfault⟩⟩ :=
    exists_last (start : Reached invoke options source table)
  · let other := last.twin fun earlier _ => h earlier
    have hother : other.moment.IsFinal := hfinal
    rw [evaluate_of_final hfinal, evaluate_of_final hother]
    rfl
  · let other := last.twin fun earlier _ => h earlier
    have hnext : other.next = last.next := h last
    have hother : other.next.result = .error fault := by rw [hnext, hfault]
    rw [evaluate_of_error hfault, evaluate_of_error hother, hnext]
    rfl

/-- No moment comes after one with a fault. -/
theorem time_le_of_error {now : Reached invoke options source table} {fault : Fault}
    (h : now.next.result = .error fault) (later : Reached invoke options source table) :
    later.time ≤ now.time := by
  induction later using invariant with
  | hstart => exact Nat.zero_le _
  | hnext earlier c hc ih =>
      rcases Nat.lt_or_eq_of_le ih with hlt | heq
      · exact hlt
      · obtain rfl := eq_of_time heq
        rw [h] at hc
        cases hc

end Reached

/-! ### Implementations and the sources that they have evaluated -/

/-- A property of sources on the tables that they are evaluated on. -/
abbrev Sought (ι : Type) : Type := Option (List (Step ι)) → FunctionTable ι → Prop

theorem Run.apart_congr {α : Type} {x y : Run (FunctionTable ι) α} {own : Option (FunctionTable ι)}
    {table : FunctionTable ι} (h : x (own.getD table) = y (own.getD table)) :
    x.apart own table = y.apart own table := by
  cases own with
  | none =>
      have hsame : x table = y table := h
      simp [apart, hsame]
  | some other =>
      have hsame : x other = y other := h
      simp [apart, hsame]

namespace Conduct

/-- A conduct on a table has the evaluator that is running it evaluate a source that is sought. -/
def Asks (evaluator : Evaluator ι) (options : Options) (sought : Sought ι) :
    Conduct ι → FunctionTable ι → Prop
  | ends _, _ => False
  | reads next, table => Asks evaluator options sought (next table) table
  | operates own o next, table =>
    Asks evaluator options sought (next (o.run (own.getD table))) (o.run.apart own table).state
  | evaluates own other source next, table =>
    let nested := evaluator (other.getD options) source
    other = none ∧ sought source (own.getD table) ∨
      Asks evaluator options sought (next (nested (own.getD table))) (nested.apart own table).state

theorem run_congr {evaluator : Evaluator ι} {options options' : Options} {sought : Sought ι}
    (h : ∀ source table, ¬sought source table →
      evaluator options' source table = evaluator options source table)
    {c : Conduct ι} {table : FunctionTable ι} (hasks : ¬c.Asks evaluator options sought table) :
    c.run evaluator options' table = c.run evaluator options table := by
  induction c generalizing table with
  | ends result => rfl
  | reads next ih =>
      rw [run, run, Run.readTable_bind, Run.readTable_bind]
      exact ih table hasks
  | operates own o next ih =>
      rw [run, run, Run.bind_of_ok rfl, Run.bind_of_ok rfl, ih _ hasks]
  | evaluates own other source next ih =>
      obtain ⟨hsought, hgoes⟩ := not_or.1 hasks
      have hsame : evaluator (other.getD options') source (own.getD table) =
          evaluator (other.getD options) source (own.getD table) := by
        cases other with
        | none => exact h source _ fun hs => hsought ⟨rfl, hs⟩
        | some other => rfl
      rw [run, run, Run.bind_of_ok rfl, Run.bind_of_ok rfl, Run.apart_congr hsame, hsame,
        ih _ hgoes]

end Conduct

/-- The implementation that a call runs asks for a source that is sought. -/
def Call.Asks {job : Job ι} (conduct : ι → List Float → Conduct ι) (evaluator : Evaluator ι)
    (sought : Sought ι) (call : Call job) : Prop :=
  (conduct call.definition.implementation call.arguments).Asks evaluator job.options sought
    call.now.present

namespace Conduct

variable (conduct : ι → List Float → Conduct ι) (options : Options)

/-- An evaluation reads a join, itself or in an evaluation inside of it. -/
def MeetsJoin : Nat → Sought ι
  | depth + 1, some source, table =>
    let job := job conduct depth options source table
    (∃ now : job.Moment, now.moment.Reads (.control .join)) ∨
      ∃ call : Call job, call.Asks conduct (evaluator conduct depth) (MeetsJoin depth)
  | _, _, _ => False

variable {conduct options}

/-- Where no join is met, other options make no difference to what is done next. -/
theorem agrees_of_not_meetsJoin {options' : Options} {depth : Nat} {source : List (Step ι)}
    {table : FunctionTable ι}
    (hinner : ∀ source table, ¬MeetsJoin conduct options depth source table →
      evaluator conduct depth options' source table = evaluator conduct depth options source table)
    {now : (job conduct depth options source table).Moment}
    (hread : ¬now.moment.Reads (.control .join))
    (hcall : ∀ call : Call (job conduct depth options source table), call.now = now →
      ¬call.Asks conduct (evaluator conduct depth) (MeetsJoin conduct options depth)) :
    now.Agrees (invocation conduct (evaluator conduct depth) options') options' := by
  refine Moment.next_congr (fun k hk => ?_) fun p hreduces => ?_
  · have hne : k ≠ .control .join := by
      rintro rfl
      exact hread hk
    exact Kind.lookup_congr hne options options' now.present
  · refine Machine.reduce_congr fun name d hkind hle hget => ?_
    exact run_congr hinner (hcall ⟨now, p, name, d, hreduces, hkind, hle, hget⟩ rfl)

/-- Other options make no difference to an evaluation that meets no join. The induction is on the depth:
evaluations inside of this one are those of the evaluator below. -/
theorem evaluator_congr {options' : Options} {depth : Nat} {source : Option (List (Step ι))}
    {table : FunctionTable ι} (h : ¬MeetsJoin conduct options depth source table) :
    evaluator conduct depth options' source table =
      evaluator conduct depth options source table := by
  induction depth generalizing source table with
  | zero => rfl
  | succ depth ih =>
      cases source with
      | none => rfl
      | some source =>
          obtain ⟨hread, hcall⟩ := not_or.1 h
          refine Reached.evaluate_congr fun now =>
            agrees_of_not_meetsJoin (fun _ _ => ih) (fun hnow => hread ⟨now, hnow⟩) ?_
          exact fun call _ hasks => hcall ⟨call, hasks⟩

/-- A source without a join meets one only inside of the calls that it makes. -/
theorem not_meetsJoin {depth : Nat} {source : List (Step ι)} {table : FunctionTable ι}
    (hread : .yield (.operation (.kind (.control .join))) ∉ source)
    (hcall : ∀ call : Call (job conduct depth options source table),
      ¬call.Asks conduct (evaluator conduct depth) (MeetsJoin conduct options depth)) :
    ¬MeetsJoin conduct options (depth + 1) (some source) table := by
  rintro (⟨now, hnow⟩ | ⟨call, hasks⟩)
  · exact hread (Job.yields_of_reads hnow)
  · exact hcall call hasks

end Conduct

/-! ### Runs without joining -/

theorem Call.mem_source {job : Job ι} (call : Call job) : job.Yields (.callStart call.name) := by
  obtain ⟨_, _, hreads, _⟩ := call.now.exists_read call.pending call.due.mem_held
  exact Job.yields_of_reads (call.kind ▸ hreads)

namespace Reached

variable {invoke : Invocation ι} {options : Options} {source : List (Step ι)}
  {table : FunctionTable ι} {now : Reached invoke options source table}

/-- A join is refused as soon as it is read. -/
theorem next_of_disabled (hoff : options.joinEnabled = false)
    (h : now.moment.Reads (.control .join)) :
    now.next = ⟨.error .joinDisabled, now.present, [.taken]⟩ := by
  rw [next, h.next_eq, Kind.lookup, hoff]
  rfl

theorem evaluate_of_disabled (hoff : options.joinEnabled = false)
    (h : now.moment.Reads (.control .join)) :
    evaluate invoke options (some source) table =
      ⟨.error .joinDisabled, now.present, now.trace ++ [.taken]⟩ := by
  have hnext := next_of_disabled hoff h
  have hevaluate := evaluate_of_error (congrArg Outcome.result hnext)
  rw [hnext] at hevaluate
  exact hevaluate

end Reached

/-- What joining refuses is never the fault of a run without it. -/
theorem Job.label_ne_of_disabled {job : Job ι} {fault : Fault}
    (hoff : job.options.joinEnabled = false) (h : job.outcome.result = .error fault) :
    fault.label ≠ "IllegalJoinError" := by
  have hlisted : ∀ label ∈ ["IllegalJoinError"], label ∈ libraryLabels := by decide
  have hforeign : ∀ signal : Signal, signal.label ≠ "IllegalJoinError" := fun signal =>
    List.ne_of_not_mem_cons (signal.label_notMem_of hlisted)
  cases fault with
  | negativeJoin a b =>
      obtain ⟨now, p, _, hreduces, hkind, _⟩ := Reached.exists_join_of_evaluate h
      obtain ⟨_, _, _, _, hlookup⟩ := now.exists_read p hreduces.mem_held
      have hon := Kind.joinEnabled_of_lookup (hkind ▸ hlookup)
      rw [hoff] at hon
      cases hon
  | raised signal => exact hforeign signal
  | unwritten name cause signal => exact hforeign signal
  | crafted label rejects text => cases isCrafted_of_outcome h
  | _ => simp [Fault.label]

namespace Conduct

/-- **Switching joining on changes nothing until a join is read.** Where neither a run without joining
nor an evaluation inside of it reads a join, the run with joining ends in the same result on the same
table with the same trace. Where the run itself is the first one to read a join, it fails there, without
a word in the log, on the table and behind the trace with which the run with joining goes on from this
very join. The fault of values that cannot be joined is never its own. -/
theorem outcome_switched (conduct : ι → List Float → Conduct ι) (depth : Nat)
    (source : List (Step ι)) (table : FunctionTable ι) :
    let off := job conduct depth ⟨false⟩ source table
    let on := job conduct depth ⟨true⟩ source table
    let meetsJoin := MeetsJoin conduct ⟨false⟩
    (¬meetsJoin (depth + 1) (some source) table → on.outcome = off.outcome) ∧
    (∀ now : off.Moment, now.moment.Reads (.control .join) →
      (∀ call : Call off, call.now.time < now.time →
        ¬call.Asks conduct (evaluator conduct depth) (meetsJoin depth)) →
      let fault := Fault.joinDisabled
      fault.label = "UnsupportedOperatorError" ∧
      off.outcome = ⟨.error fault, now.present, now.trace ++ [.taken]⟩ ∧
      Event.ownRecords off.outcome.trace = [] ∧
      ∃ twin : on.Moment, twin.time = now.time ∧ twin.moment = now.moment ∧
        twin.present = now.present ∧ twin.trace = now.trace ∧
        twin.next = ⟨.ok ⟨now.moment.machine, some (.control .join, Control.join.operator),
          now.moment.rest.tail⟩, now.present, [.taken]⟩) ∧
    ∀ fault, off.outcome.result = .error fault → fault.label ≠ "IllegalJoinError" := by
  intro off on meetsJoin
  refine ⟨evaluator_congr, fun now hread hcalls => ?_, fun fault => Job.label_ne_of_disabled rfl⟩
  intro fault
  have houtcome : off.outcome = ⟨.error fault, now.present, now.trace ++ [.taken]⟩ :=
    Reached.evaluate_of_disabled rfl hread
  have hagree : ∀ earlier : off.Moment, earlier.time < now.time →
      earlier.Agrees (invocation conduct (evaluator conduct depth) ⟨true⟩) ⟨true⟩ := by
    intro earlier hlt
    refine agrees_of_not_meetsJoin (fun _ _ => evaluator_congr) (fun hreads => ?_) ?_
    · have hlast := Reached.next_of_disabled rfl hreads
      have hle := Reached.time_le_of_error (congrArg Outcome.result hlast) now
      exact absurd hlt (Nat.not_lt.2 hle)
    · rintro call rfl
      exact hcalls call hlt
  exact ⟨rfl, houtcome, Job.ownRecords_of_error (congrArg Outcome.result houtcome),
    now.twin hagree, rfl, rfl, rfl, rfl, Moment.Reads.next_eq hread _ _ _⟩

/-- The source of the called function has no join. A source that only calls it ends in the same way
with joining and without; one that goes on with a join fails there, after the same call. -/
theorem outcome_switched_after_call :
    let sum : List (Step Routine) := Token.source [.number 1, .operator (.arithmetic .add), .number 2,
      .operator (.control .endExpr)]
    let table : FunctionTable Routine := ⟨[⟨"f", 0, .evaluate sum⟩]⟩
    let digits : List (Step Routine) := Token.source [.operator (.callStart "f"),
      .operator (.control .closeBracket), .operator (.control .join), .number 4,
      .operator (.control .endExpr)]
    let outcome (options : Options) (source : List (Step Routine)) :=
      evaluator Routine.conduct 2 options (some source) table
    outcome ⟨true⟩ (Routine.calling "f") = outcome ⟨false⟩ (Routine.calling "f") ∧
    (outcome ⟨false⟩ digits).result = .error .joinDisabled ∧
    Event.callsIn (outcome ⟨false⟩ digits).trace = [("f", [])] ∧
    (outcome ⟨true⟩ digits).result.toOption = some 34 := by
  intro sum table digits outcome
  have hsum : ¬MeetsJoin Routine.conduct ⟨false⟩ 1 (some sum) table := by
    refine not_meetsJoin (by simp [sum, Token.source, Item.ofToken]) fun call => ?_
    have hmem := call.mem_source
    simp [Job.Yields, job, sum, Token.source, Item.ofToken] at hmem
  have hleave : ∀ d ∈ table.toList, ∀ arguments,
      (invocation Routine.conduct (evaluator Routine.conduct 1) ⟨false⟩ d.implementation arguments
        table).state = table := by
    intro d hd arguments
    obtain rfl := List.mem_singleton.1 hd
    rfl
  have hcalls : ∀ (ts : List Token)
      (call : Call (job Routine.conduct 1 ⟨false⟩ (Token.source ts) table)),
      ¬call.Asks Routine.conduct (evaluator Routine.conduct 1)
        (MeetsJoin Routine.conduct ⟨false⟩ 1) := by
    intro ts call hasks
    have hpresent : call.now.present = table := Reached.present_eq hleave call.now
    have hd := FunctionTable.mem_of_get call.found
    rw [hpresent] at hd
    have hdefinition := List.mem_singleton.1 hd
    rw [Call.Asks, hpresent, hdefinition] at hasks
    rcases hasks with ⟨_, hjoin⟩ | hends
    · exact hsum hjoin
    · exact hends
  have hcalling : ¬MeetsJoin Routine.conduct ⟨false⟩ 2 (some (Routine.calling "f")) table :=
    not_meetsJoin (by simp [Routine.calling, Token.source, Item.ofToken]) (hcalls _)
  let now : (job Routine.conduct 1 ⟨false⟩ digits table).Moment := ⟨5, _, _, _, rfl⟩
  have hread : now.moment.Reads (.control .join) := ⟨rfl, _, rfl⟩
  obtain ⟨hsame, _, _⟩ := outcome_switched Routine.conduct 1 (Routine.calling "f") table
  obtain ⟨_, hfirst, _⟩ := outcome_switched Routine.conduct 1 digits table
  obtain ⟨_, houtcome, _⟩ := hfirst now hread fun call _ => hcalls _ call
  have hdisabled : outcome ⟨false⟩ digits = _ := houtcome
  have hjoined : (outcome ⟨true⟩ digits).result.toOption = some 34 := by decide +kernel
  refine ⟨hsame hcalling, congrArg Outcome.result hdisabled, ?_, hjoined⟩
  rw [hdisabled]
  decide +kernel

end Conduct

end Reckoner
