import Reckoner.Proofs.CallTime
import Reckoner.Proofs.Recovery

/-!
How evaluations fail. A run fails at its last moment, where it reads an item, registers a function or
reduces a pending operator, so the faults are those of items, of registrations, of too few values, of
joining, of calls, and of an end with another number of values than one (`Job.fails_of_outcome`). Where
all items are valid tokens few of them are left: whatever an implementation raises comes out wrapped,
unless it is an order to stop, and arithmetic never fails on as many values as it takes. One gap is in
this: to wrap a failure or to refuse a result its text has to be written, and where that fails, what is
raised then comes out instead.
-/

namespace Reckoner

variable {ι : Type}

/-! ### Evaluations and the calls that they make -/

/-- An evaluation with all that it depends on. -/
structure Job (ι : Type) where
  invoke : Invocation ι
  options : Options
  source : List (Step ι)
  table : FunctionTable ι

namespace Job

def outcome (job : Job ι) : Outcome (FunctionTable ι) Float :=
  evaluate job.invoke job.options (some job.source) job.table

abbrev Moment (job : Job ι) : Type := Reached job.invoke job.options job.source job.table

def Yields (job : Job ι) (k : Kind) : Prop := .yield (.operation (.kind k)) ∈ job.source

theorem yields_of_reads {job : Job ι} {now : job.Moment} {k : Kind} (h : now.moment.Reads k) :
    job.Yields k := by
  obtain ⟨_, rest, hrest⟩ := h
  apply now.rest_suffix.subset
  rw [hrest]
  exact List.mem_cons_self

end Job

/-- A call that an evaluation makes: its operator is due and finds its values, and the table has the
function. -/
structure Call (job : Job ι) where
  now : job.Moment
  pending : Pending
  name : String
  definition : Definition ι
  due : now.moment.Reduces pending
  kind : pending.kind = .callStart name
  enough : pending.operator.arity ≤ now.moment.machine.values.length
  found : now.present.get name = .ok definition

namespace Call

variable {job : Job ι}

def arguments (call : Call job) : List Float :=
  (call.now.moment.machine.values.take call.pending.operator.arity).reverse

def ended (call : Call job) : Outcome (FunctionTable ι) Value :=
  job.invoke call.definition.implementation call.arguments call.now.present

theorem next_eq (call : Call job) :
    call.now.next = ⟨(Machine.judged call.name call.ended.result).map fun x =>
        call.now.moment.reduced
          (x :: call.now.moment.machine.values.drop call.pending.operator.arity),
      call.ended.state,
      .reduced call.pending.position (.callStart call.name) call.arguments ::
        .called call.name call.arguments call.ended.trace ::
          Machine.warnings call.name call.ended.result⟩ :=
  Reached.next_of_call call.due call.kind call.enough call.found

end Call

/-! ### Faults of reductions -/

/-- A reduction fails for want of values, by joining, or by what a call comes to. -/
theorem Machine.error_of_reduce {invoke : Invocation ι} {values : List Float} {p : Pending}
    {table : FunctionTable ι} {fault : Fault} (hsuits : p.kind.Suits p.operator)
    (h : (reduce invoke values p table).result = .error fault) :
    (values.length < p.operator.arity ∧
      fault = .tooFewValues p.kind p.operator.arity values.length) ∨
    (p.kind = .control .join ∧ ∃ a b, lesser a b < 0 ∧ fault = .negativeJoin a b) ∨
    ∃ name, p.kind = .callStart name ∧
      (table.find? name = none ∧ fault = .unknownFunction name ∨
      ∃ d, table.get name = .ok d ∧ judged name
        (invoke d.implementation (values.take p.operator.arity).reverse table).result =
          .error fault) := by
  rcases Nat.lt_or_ge values.length p.operator.arity with hlt | hle
  · rw [reduce_of_lt hlt] at h
    exact Or.inl ⟨hlt, (Except.error.inj h).symm⟩
  · have hlength := length_arguments hle
    rw [reduce_of_le hle rfl] at h
    have happlied := Run.map_eq_error h
    cases hkind : p.kind with
    | arithmetic op =>
        have harity : p.operator.arity = op.operator.arity :=
          hsuits.arity _ (by rw [hkind, Kind.arity?])
        obtain ⟨x, hx⟩ := op.exists_apply (hlength.trans harity)
        rw [hkind, apply, Run.ofExcept_result, hx] at happlied
        cases happlied
    | control marker =>
        have harity : p.operator.arity = marker.operator.arity :=
          hsuits.arity _ (by rw [hkind, Kind.arity?])
        rw [hkind, apply, Run.ofExcept_result] at happlied
        obtain ⟨rfl, a, b, _, hlt, hfault⟩ :=
          Control.apply_eq_error (hlength.trans harity) happlied
        exact Or.inr (Or.inl ⟨rfl, a, b, hlt, hfault⟩)
    | callStart name =>
        refine Or.inr (Or.inr ⟨name, rfl, ?_⟩)
        rw [hkind, apply_callStart rfl] at happlied
        have hcalled := Run.map_eq_error happlied
        cases hget : table.get name with
        | error fault' =>
            have hnone := (FunctionTable.get_eq_error hget).1
            rw [call_of_find_none invoke hnone] at hcalled
            exact Or.inl ⟨hnone, (Except.error.inj hcalled).symm⟩
        | ok d =>
            rw [call_of_get invoke hget rfl] at hcalled
            exact Or.inr ⟨d, rfl, hcalled⟩
    | callEnd =>
        rw [hkind] at happlied
        cases happlied
    | comma =>
        rw [hkind] at happlied
        cases happlied

/-! ### Faults of evaluations -/

theorem Kind.joinEnabled_of_lookup {options : Options} {table : FunctionTable ι} {op : Operator}
    (h : (Kind.control .join).lookup options table = .ok op) : options.joinEnabled = true := by
  rw [lookup] at h
  split at h
  · assumption
  · cases h

theorem Machine.result_of_ne {m : Machine} (h : m.values.length ≠ 1) :
    m.result = .error (.unreduced m.values.length) := by
  rw [result]
  split
  · rename_i x hx
    rw [hx] at h
    exact absurd rfl h
  · rfl

theorem Machine.error_of_result {m : Machine} {fault : Fault} (h : m.result = .error fault) :
    ∃ n, n ≠ 1 ∧ fault = .unreduced n := by
  rw [result] at h
  split at h
  · cases h
  · rename_i hvalues
    refine ⟨m.values.length, fun hone => ?_, (Except.error.inj h).symm⟩
    obtain ⟨x, hx⟩ := List.length_eq_one_iff.1 hone
    exact hvalues x hx

/-- The faults in which an evaluation may end, each with its reason: that of the end, of an item, of a
registration, of an operator that lacks values, of joining, of a function that has gone since its call
was read, and of a call. -/
inductive Job.Fails (job : Job ι) : Fault → Prop where
  | unreduced {n : Nat} (h : n ≠ 1) : Fails job (.unreduced n)
  | refused {now : job.Moment} {item : Item} {fault : Fault} (hread : .yield item ∈ job.source)
    (h : item.Refused job.options now.present fault) : Fails job fault
  | registration {r : Registration ι} {fault : Fault} (hread : .register r ∈ job.source)
    (h : r.definition = .error fault) : Fails job fault
  | tooFewValues {k : Kind} {required available : Nat} (hread : job.Yields k)
    (h : available < required) : Fails job (.tooFewValues k required available)
  | negativeJoin {a b : Float} (hread : job.Yields (.control .join))
    (hon : job.options.joinEnabled = true) (h : lesser a b < 0) : Fails job (.negativeJoin a b)
  | unknown {now : job.Moment} {name : String} (hread : job.Yields (.callStart name))
    (h : now.present.find? name = none) : Fails job (.unknownFunction name)
  | call (call : Call job) {fault : Fault}
    (h : Machine.judged call.name call.ended.result = .error fault) : Fails job fault

theorem Job.fails_of_outcome {job : Job ι} {fault : Fault} (h : job.outcome.result = .error fault) :
    job.Fails fault := by
  obtain ⟨last, hfinal | ⟨fault', hfault⟩⟩ := Reached.exists_last (Reached.start : job.Moment)
  · rw [outcome, Reached.evaluate_of_final hfinal] at h
    obtain ⟨n, hn, rfl⟩ := Machine.error_of_result h
    exact .unreduced hn
  · rw [outcome, Reached.evaluate_of_error hfault] at h
    obtain rfl := Except.error.inj h
    rcases Moment.error_of_next hfault with
      ⟨item, hhead, hrefused⟩ | ⟨r, hhead, hrefused⟩ | ⟨p, hreduces, hreduced⟩
    · exact .refused (last.rest_suffix.subset (List.mem_of_head? hhead)) hrefused
    · exact .registration (last.rest_suffix.subset (List.mem_of_head? hhead)) hrefused
    · obtain ⟨earlier, _, hreads, _, hlookup⟩ := last.exists_read p hreduces.mem_held
      have hread := yields_of_reads hreads
      rcases Nat.lt_or_ge last.moment.machine.values.length p.operator.arity with hlt | hle
      · rw [Machine.reduce_of_lt hlt] at hreduced
        rw [← Except.error.inj hreduced]
        exact .tooFewValues hread hlt
      · rcases Machine.error_of_reduce (Kind.suits_of_lookup hlookup) hreduced with
          ⟨hlt, _⟩ | ⟨hkind, a, b, hlt, rfl⟩ | ⟨f, hkind, ⟨hnone, rfl⟩ | ⟨d, hget, hjudged⟩⟩
        · exact absurd hlt (Nat.not_lt.2 hle)
        · exact .negativeJoin (hkind ▸ hread) (Kind.joinEnabled_of_lookup (hkind ▸ hlookup)) hlt
        · exact .unknown (hkind ▸ hread) hnone
        · exact .call ⟨last, p, f, d, hreduces, hkind, hle, hget⟩ hjudged

/-! ### Valid tokens -/

namespace Call

variable {job : Job ι} {call : Call job} {fault : Fault}

end Call

theorem Token.exists_of_mem_source {s : Step ι} {ts : List Token} (h : s ∈ Token.source ts) :
    ∃ t ∈ ts, .yield (.ofToken t) = s := List.mem_map.1 h

end Reckoner
