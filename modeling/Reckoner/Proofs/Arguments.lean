import Reckoner.Proofs.Barrier
import Reckoner.Proofs.Precedence
import Reckoner.Proofs.Regroup

/-!
The arguments that a call receives. Commas and the end of a call reduce nothing, so what an argument
leaves pending takes the next argument along: the call receives the values of the regrouped
arguments. They are the values of the arguments as they are written wherever regrouping keeps them,
in particular if all but the last are numbers.
-/

namespace Reckoner

namespace Expression

/-- A call with commas between its arguments, its end and the end of the stream. -/
def callStream (name : String) (arguments : List Expression) : List Token :=
  .operator (.callStart name) :: (List.intercalate [.operator .comma] (arguments.map flatten) ++
    [.operator .callEnd, .operator (.control .endExpr)])

/-- Expressions are written without barriers. -/
theorem filter_flatten (e : Expression) :
    e.flatten.filter (fun t => !t.isBarrier) = e.flatten := by
  induction e with
  | number x => rfl
  | group e ih =>
      rw [flatten, List.filter_cons_of_pos rfl, List.filter_append, ih]
      rfl
  | negation e ih => rw [flatten, List.filter_cons_of_pos rfl, ih]
  | binary op l r hl hr =>
      rw [flatten, List.filter_append, List.filter_cons_of_pos rfl, hl, hr]
  | join l r hl hr =>
      rw [flatten, List.filter_append, List.filter_cons_of_pos rfl, hl, hr]

theorem filter_callStream (name : String) (arguments : List Expression) :
    (callStream name arguments).filter (fun t => !t.isBarrier) =
      .operator (.callStart name) ::
        (arguments.flatMap flatten ++ [.operator (.control .endExpr)]) := by
  have hcommas : (List.intercalate [.operator .comma] (arguments.map flatten)).filter
      (fun t => !t.isBarrier) = arguments.flatMap flatten := by
    induction arguments with
    | nil => rfl
    | cons e rest ih =>
        cases rest with
        | nil =>
            rw [List.map_cons, List.map_nil, List.intercalate_singleton, filter_flatten]
            simp
        | cons next rest =>
            rw [List.map_cons, List.map_cons, List.intercalate_cons_cons, List.filter_append,
              List.filter_append, filter_flatten, List.flatMap_cons, ← ih, List.map_cons]
            simp [Token.isBarrier, Kind.isBarrier]
  rw [callStream, List.filter_cons_of_pos rfl, List.filter_append, hcommas]
  rfl

end Expression

namespace Machine

open Expression

variable {ι : Type} (invoke : Invocation ι) (options : Options)

theorem observed_finish (m : Machine) (ts : List Token) :
    (finish invoke options m ts).observed =
      (reads invoke options m ts).observed >>= fun m' => Run.ofExcept m'.result := by
  rw [finish, Run.observed_bind]
  simp only [Run.observed_ofExcept]

theorem observed_finish_argument {rank : Rank} {e : Expression} (h : Derives false rank e)
    (hjoins : e.joins = []) {x : Float} (hx : e.value = .ok x) {k : Kind} {op : Operator}
    (hk : k.HasOperator ι options op) (hop : op.unwinds rank.operator = true)
    {pending : List Pending} (hawaits : Awaits rank pending) (values : List Float) (n : Nat)
    (rest : List Token) :
    (finish invoke options ⟨values, pending, n⟩ (e.flatten ++ .operator k :: rest)).observed =
      (finish invoke options ⟨x :: values, pending, n⟩ (.operator k :: rest)).observed := by
  obtain ⟨pending', n', hkeeps, hpushes⟩ := readable_of_derives invoke options h
    (fun q hq => absurd hq (by simp [hjoins])) pending n hawaits (fun h => Bool.noConfusion h)
  rw [hkeeps.same rfl] at hpushes
  rw [observed_finish, hpushes values k op rest hk hop, hx, Run.ofExcept_ok, pure_bind,
    ← observed_finish]
  exact observed_finish_shape invoke options _ _ _ _ _ _ rfl

theorem observed_finish_push {k : Kind} {op : Operator} (hk : k.HasOperator ι options op)
    {pending : List Pending} (hstop : ∀ p ∈ pending.head?, op.unwinds p.operator = false)
    (values : List Float) (n n' m : Nat) (ts : List Token) :
    (finish invoke options ⟨values, pending, n⟩ (.operator k :: ts)).observed =
      (finish invoke options ⟨values, ⟨n', k, op⟩ :: pending, m⟩ ts).observed := by
  rw [observed_finish, observed_reads_push invoke options hk hstop, ← observed_finish]
  exact observed_finish_shape invoke options _ _ _ _ _ _ rfl

/-- Without a separator, an expression leaves its settled part and hands the rest to the next. The
induction goes along the right spine: each operator on it finds the same machine with its own right operand
on top and, in front of the next expression, with the settled part of that operand instead. -/
theorem observed_finish_carry {rank : Rank} {e : Expression} (h : Derives false rank e)
    (hjoins : e.joins = []) {x : Float} (hx : e.settled.value = .ok x) (next : Expression)
    (rest : List Token) (values : List Float) {pending : List Pending}
    (hawaits : Awaits rank pending) (n : Nat) :
    (finish invoke options ⟨values, pending, n⟩ (e.flatten ++ (next.flatten ++ rest))).observed =
      (finish invoke options ⟨x :: values, pending, n⟩
        ((e.carry next).flatten ++ rest)).observed := by
  induction e generalizing rank x values pending n with
  | number y =>
      rw [← Except.ok.inj hx]
      exact observed_finish_number invoke options _ y _
  | negation e ih =>
      obtain ⟨hle, he⟩ := h.of_negation
      have hneg := Kind.hasOperator_arithmetic ι options .negate
      have hstop := hawaits.of_le hle
      have hinside : Awaits .unary
          (⟨n, .arithmetic .negate, Arithmetic.negate.operator⟩ :: pending) := awaits_cons rfl _ _ _
      have hcarry : ((negation e).carry next).flatten =
          [.operator (.arithmetic .negate)] ++ (e.carry next).flatten :=
        flatten_inFront (fun _ => rfl) _
      rw [flatten, List.cons_append, observed_finish_push invoke options hneg hstop _ _ n (n + 1),
        ih he hjoins hx values hinside, hcarry, List.append_assoc]
      exact (observed_finish_push invoke options hneg hstop _ _ _ _ _).symm
  | binary op l r _ hr =>
      obtain ⟨own, hsign, hown, hop, hle, hleft, hright, _⟩ := h.of_binary
      obtain ⟨hlj, hrj⟩ := List.append_eq_nil_iff.1 hjoins
      have hk := Kind.hasOperator_arithmetic ι options op
      have hstop : ∀ p ∈ pending.head?, op.operator.unwinds p.operator = false := by
        rw [hop]
        exact hawaits.of_le hle
      have hclose : op.operator.unwinds own.left.operator = true := by
        rw [hop]
        exact Rank.unwinds_left hsign
      have hinside : Awaits own.right (⟨n, .arithmetic op, op.operator⟩ :: pending) := by
        apply awaits_cons
        rw [hop]
        exact (Rank.unwinds_eq_false_iff hown _).2 (Nat.le_refl _)
      have hbefore : Awaits own.left pending := hawaits.of_le (Nat.le_trans hle own.le_left)
      obtain ⟨y, hy⟩ := hright.settled.value_of_joins (joins_settled hrj)
      have hcarry : ((binary op l r).carry next).flatten =
          (r.settled.flatten ++ [.operator (.arithmetic op)]) ++ (r.carry next).flatten := by
        rw [carry]
        apply flatten_inFront
        intro e
        rw [flatten, List.append_assoc]
        rfl
      calc
        _ = (finish invoke options ⟨x :: values, pending, n⟩ (.operator (.arithmetic op) ::
              (r.flatten ++ (next.flatten ++ rest)))).observed := by
          rw [flatten, List.append_assoc, List.cons_append]
          exact observed_finish_argument invoke options hleft hlj hx hk hclose hbefore _ _ _
        _ = (finish invoke options
              ⟨x :: values, ⟨n, .arithmetic op, op.operator⟩ :: pending, n + 1⟩
              (r.flatten ++ (next.flatten ++ rest))).observed :=
          observed_finish_push invoke options hk hstop _ _ _ _ _
        _ = (finish invoke options
              ⟨y :: x :: values, ⟨n, .arithmetic op, op.operator⟩ :: pending, n + 1⟩
              ((r.carry next).flatten ++ rest)).observed := hr hright hrj hy _ hinside _
        _ = (finish invoke options ⟨y :: x :: values, pending, n⟩ (.operator (.arithmetic op) ::
              ((r.carry next).flatten ++ rest))).observed :=
          (observed_finish_push invoke options hk hstop _ _ _ _ _).symm
        _ = (finish invoke options ⟨x :: values, pending, n⟩
              (((binary op l r).carry next).flatten ++ rest)).observed := by
          rw [hcarry, List.append_assoc, List.append_assoc]
          exact (observed_finish_argument invoke options hright.settled_left (joins_settled hrj) hy
            hk hclose hbefore _ _ _).symm
  | group e => exact absurd h (not_derives_group rank e)
  | join l r => exact absurd hjoins (by simp [joins])

/-- Without separators, arguments leave the values of the regrouped arguments. -/
theorem observed_finish_arguments {pending : List Pending} (hawaits : Awaits .sum pending)
    {e : Expression} {rest : List Expression} (h : ∀ e' ∈ e :: rest, e'.IsArgument)
    (values : List Float) (n : Nat) :
    ∃ received : List Float, received.map Except.ok = (regroupFrom e rest).map value ∧
      (finish invoke options ⟨values, pending, n⟩
          ((e :: rest).flatMap flatten ++ [.operator (.control .endExpr)])).observed =
        (finish invoke options ⟨received.reverse ++ values, pending, n⟩
          [.operator (.control .endExpr)]).observed := by
  induction rest generalizing e values with
  | nil =>
      obtain ⟨he, hjoins⟩ := h e List.mem_cons_self
      obtain ⟨x, hx⟩ := he.value_of_joins hjoins
      have hend := Kind.hasOperator_endExpr ι options
      refine ⟨[x], by simp [regroupFrom, hx], ?_⟩
      rw [List.flatMap_cons, List.flatMap_nil, List.append_nil]
      exact observed_finish_argument invoke options he hjoins hx hend rfl hawaits values n []
  | cons next rest ih =>
      obtain ⟨he, hjoins⟩ := h e List.mem_cons_self
      obtain ⟨x, hx⟩ := he.settled.value_of_joins (joins_settled hjoins)
      have hnext : ∀ e' ∈ e.carry next :: rest, e'.IsArgument := by
        intro e' he'
        rcases List.mem_cons.1 he' with rfl | he'
        · exact (h e List.mem_cons_self).carry (h next (by simp))
        · exact h e' (by simp [he'])
      obtain ⟨received, hreceived, hfinish⟩ := ih hnext (x :: values)
      refine ⟨x :: received, by rw [regroupFrom, List.map_cons, List.map_cons, hx, hreceived], ?_⟩
      rw [List.flatMap_cons, List.flatMap_cons, List.append_assoc, List.append_assoc,
        observed_finish_carry invoke options he hjoins hx next _ values hawaits n]
      rw [List.flatMap_cons, List.append_assoc] at hfinish
      rw [hfinish, List.reverse_cons, List.append_assoc]
      rfl

theorem observed_finish_call {name : String} {received : List Float} {arity : Nat}
    (harity : arity = received.length) (n : Nat) :
    (finish invoke options ⟨received.reverse, [⟨0, .callStart name, .call arity⟩], n⟩
        [.operator (.control .endExpr)]).observed = call invoke name received := by
  have hend := Kind.hasOperator_endExpr ι options
  have hle : (Operator.call arity).arity ≤ received.reverse.length := by
    rw [List.length_reverse, ← harity]
    exact Nat.le_refl _
  have htake : received.reverse.take (Operator.call arity).arity = received.reverse :=
    List.take_of_length_le (by rw [List.length_reverse]; exact Nat.le_of_eq harity.symm)
  have hdrop : received.reverse.drop (Operator.call arity).arity = [] :=
    List.drop_eq_nil_of_le (by rw [List.length_reverse]; exact Nat.le_of_eq harity.symm)
  rw [observed_finish, observed_reads_unwind invoke options hend rfl, observed_reduce invoke hle,
    htake, hdrop, List.reverse_reverse]
  simp only [apply, bind_assoc, pure_bind]
  calc
    _ = call invoke name received >>= fun x => pure x := by
      apply bind_congr
      intro x
      rw [observed_reads_push invoke options hend (by simp), reads_nil]
      rfl
    _ = call invoke name received := bind_pure _

/-- A written call shows the call on the values of the regrouped arguments. -/
theorem observed_evaluate_callStream {name : String} {table : FunctionTable ι} {d : Definition ι}
    (hget : table.get name = .ok d) {es : List Expression} (hes : ∀ e ∈ es, e.IsArgument)
    (harity : d.arity = es.length) (hpos : 1 ≤ d.arity) :
    ∃ received : List Float, received.map Except.ok = (regroup es).map value ∧
      (evaluate invoke options (some (Token.source (callStream name es)))).observed table =
        Run.reportingRejection (call invoke name received) table := by
  cases es with
  | nil => rw [harity] at hpos; exact absurd hpos (by decide)
  | cons e rest =>
      have hawaits : Awaits .sum [⟨0, .callStart name, .call d.arity⟩] := awaits_cons rfl _ _ _
      obtain ⟨received, hreceived, hfinish⟩ :=
        observed_finish_arguments invoke options hawaits hes [] 1
      have hlen : d.arity = received.length := by
        have hlen := congrArg List.length hreceived
        rw [List.length_map, List.length_map, length_regroupFrom] at hlen
        rw [harity, hlen, List.length_cons]
      refine ⟨received, hreceived, ?_⟩
      rw [observed_evaluate_filter, filter_callStream, evaluate_source,
        Run.observed_reportingRejection]
      apply Run.reportingRejection_congr
      have hlookup : (Kind.callStart name).lookup options table = .ok (.call d.arity) := by
        rw [Kind.lookup, hget]
        rfl
      change (finish invoke options ⟨[], [], 0⟩ _).observed table = _
      rw [observed_finish_operator, Run.readOperators_bind, hlookup, Run.ofExcept_ok, pure_bind]
      simp only [shape, List.map_nil, List.takeWhile_nil, List.foldlM_nil, pure_bind]
      rw [List.append_nil, observed_finish_call invoke options hlen] at hfinish
      exact congrFun hfinish table

theorem calls_call_of_isPure {name : String} {table : FunctionTable ι} {d : Definition ι}
    (hget : table.get name = .ok d) (hpure : invoke.IsPure d.implementation)
    (arguments : List Float) :
    Event.callsIn (call invoke name arguments table).trace = [(name, arguments)] := by
  obtain ⟨meaning, hmeaning⟩ := hpure
  have hdefinition : Run.definition name table = ⟨.ok d, table, []⟩ := by
    rw [Run.definition, Run.readTable_bind, hget]
    rfl
  rw [call, Run.bind_of_ok (by rw [hdefinition]), hdefinition, Run.bind_of_ok rfl, hmeaning]
  simp only [Run.asCall, List.nil_append, List.cons_append, Event.callsIn, Event.calls,
    Run.ofExcept_trace, Run.ofExcept_result, Run.ofExcept_state]
  cases meaning arguments with
  | ok v => simp only [Run.ofExcept_trace, Event.callsIn]
  | error cause =>
      by_cases hstop : cause.isStop = true
      · simp only [hstop, if_true]
        rfl
      · simp only [hstop]
        rfl

end Machine

open Machine Expression in
/-- **A call receives the values of its regrouped arguments.** A written call to a function with an
implementation that does nothing else is made once. Its arguments have the values that they have
alone exactly if regrouping keeps the values; regrouping keeps the arguments themselves exactly if
all but the last are numbers. -/
theorem evaluate_callStream {ι : Type} (invoke : Invocation ι) (options : Options) {name : String}
    {table : FunctionTable ι} {d : Definition ι} (hget : table.get name = .ok d)
    (hpure : invoke.IsPure d.implementation) {es : List Expression}
    (hes : ∀ e ∈ es, e.IsArgument) (harity : d.arity = es.length) (hpos : 1 ≤ d.arity) :
    ∃ received : List Float,
      Event.callsIn (evaluate invoke options (some (Token.source (callStream name es)))
        table).trace = [(name, received)] ∧
      received.map Except.ok = (regroup es).map value ∧
      (received.map Except.ok = es.map (fun e => (evaluate invoke options (some (Token.source
          (e.flatten ++ [.operator (.control .endExpr)]))) table).result) ↔
        (regroup es).map value = es.map value) ∧
      (regroup es = es ↔ ∀ e ∈ es.dropLast, ∃ x, e = .number x) := by
  obtain ⟨received, hreceived, hobserved⟩ :=
    observed_evaluate_callStream invoke options hget hes harity hpos
  have halone : ∀ e ∈ es, (evaluate invoke options (some (Token.source
      (e.flatten ++ [.operator (.control .endExpr)]))) table).result = e.value := by
    intro e he
    obtain ⟨hderives, hjoins⟩ := hes e he
    rw [← Run.observed_result, observed_evaluate_flatten invoke options hderives.leading
      (fun q hq => absurd hq (by simp [hjoins])), Run.reportingRejection_result,
      Run.ofExcept_result]
  refine ⟨received, ?_, hreceived, ?_, regroup_eq_self_iff hes⟩
  · rw [← Run.observed_calls, hobserved, Run.reportingRejection_calls]
    exact calls_call_of_isPure invoke hget hpure received
  · rw [List.map_congr_left halone, hreceived]

/-- The table of one function: the number that has its two arguments for digits. -/
def digitsTable : FunctionTable Routine := ⟨[⟨"f", 2, .digits⟩]⟩

open Machine Expression in
theorem evaluate_callStream_digits :
    let es : List Expression := [.binary .add (.number 1) (.number 2), .number 3]
    (∀ e ∈ es, e.IsArgument) ∧ ∃ received : List Float,
      Event.callsIn (Routine.evaluateSource ⟨false⟩ (some (Token.source (callStream "f" es)))
        digitsTable).trace = [("f", received)] ∧
      received.map Except.ok = (regroup es).map value := by
  intro es
  have hnumber : ∀ (rank : Rank) (x : Float), Derives false rank (.number x) := fun rank x =>
    (Derives.number x).of_le (by cases rank <;> decide)
  have hes : ∀ e ∈ es, e.IsArgument := by
    intro e he
    rcases List.mem_cons.1 he with rfl | he
    · exact ⟨.sum (Or.inl rfl) (hnumber _ 1) (hnumber _ 2), rfl⟩
    · rw [List.mem_singleton.1 he]
      exact ⟨hnumber _ 3, rfl⟩
  have hget : digitsTable.get "f" = .ok ⟨"f", 2, .digits⟩ := rfl
  have hpure : Invocation.IsPure (Routine.invoke ⟨false⟩ Routine.nestingLimit) .digits :=
    ⟨fun arguments => .ok (.float (arguments.foldl (fun acc a => acc * 10 + a) 0)), fun _ => rfl⟩
  obtain ⟨received, hcalls, hreceived, -⟩ := evaluate_callStream _ ⟨false⟩ hget hpure hes rfl
    (by decide)
  exact ⟨hes, received, hcalls, hreceived⟩

open Expression in
/-- `f(1 + 2, 3)` is called with 1 and 5, though both arguments are 3 alone. -/
theorem evaluate_callStream_unseparated :
    let es : List Expression := [.binary .add (.number 1) (.number 2), .number 3]
    Event.callsIn (Routine.evaluateSource ⟨false⟩ (some (Token.source (callStream "f" es)))
      digitsTable).trace = [("f", [1, 5])] ∧
    es.map (fun e => (Routine.evaluateSource ⟨false⟩ (some (Token.source
      (e.flatten ++ [.operator (.control .endExpr)]))) digitsTable).result.toOption) =
        [some 3, some 3] := by
  decide +kernel

end Reckoner
