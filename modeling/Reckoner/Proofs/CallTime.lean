import Reckoner.Proofs.Moment
import Reckoner.Routine

/-!
When a call looks things up. A call is read at one moment and reduced at a later one, and in between
the source and the implementations may do anything to the table. How many values the call takes was
settled when it was read; which implementation runs is settled when it is reduced. Both moments are
named here for every call of a run, so that the table of the one and the table of the other can be
told apart.
-/

namespace Reckoner

variable {ι : Type}

namespace Machine

variable {invoke : Invocation ι}

/-- Only the reduction of a call calls, and it calls what the table holds. -/
theorem call_of_mem_reduce {values : List Float} {p : Pending} {table : FunctionTable ι}
    {name : String} {arguments : List Float} {inner : List Event}
    (h : .called name arguments inner ∈ (reduce invoke values p table).trace) :
    p.kind = .callStart name ∧ p.operator.arity ≤ values.length ∧
      arguments = (values.take p.operator.arity).reverse ∧
      ∃ d, table.get name = .ok d ∧ inner = (invoke d.implementation arguments table).trace := by
  obtain ⟨hle, h | ⟨_, d, hkind, hget, h⟩ | ⟨_, h⟩⟩ := mem_reduce h
  · cases h
  · obtain ⟨rfl, rfl, rfl⟩ := Event.called.inj h
    exact ⟨hkind, hle, rfl, d, hget, rfl⟩
  · cases h

end Machine

theorem Moment.call_of_mem_next {invoke : Invocation ι} {options : Options} {c : Moment ι}
    {table : FunctionTable ι} {name : String} {arguments : List Float} {inner : List Event}
    (h : .called name arguments inner ∈ (c.next invoke options table).trace) :
    ∃ p, c.Reduces p ∧ p.kind = .callStart name ∧
      p.operator.arity ≤ c.machine.values.length ∧
      arguments = (c.machine.values.take p.operator.arity).reverse ∧
      ∃ d, table.get name = .ok d ∧ inner = (invoke d.implementation arguments table).trace := by
  have hdeed := deed_next invoke options c table
  generalize c.next invoke options table = outcome at h hdeed
  cases hdeed with
  | reduces hreduces hreduction =>
      rw [← hreduction] at h
      exact ⟨_, hreduces, Machine.call_of_mem_reduce h⟩
  | _ => simp at h

namespace Reached

variable {invoke : Invocation ι} {options : Options} {source : List (Step ι)}
  {table : FunctionTable ι}

/-- An operator is reduced with what was looked up when it was read. -/
theorem lookup_of_reads {earlier now : Reached invoke options source table} {k : Kind} {p : Pending}
    (hreads : earlier.moment.Reads k) (hp : p ∈ now.moment.held)
    (hposition : earlier.moment.machine.operatorsRead = p.position) :
    earlier.time < now.time ∧ p.kind = k ∧ k.lookup options earlier.present = .ok p.operator := by
  obtain ⟨reading, hlt, hreads', hposition', hlookup⟩ := now.exists_read p hp
  obtain rfl := eq_of_reads hreads hreads' (hposition.trans hposition'.symm)
  have hkind : p.kind = k := by
    obtain ⟨_, rest, hrest⟩ := hreads
    obtain ⟨_, rest', hrest'⟩ := hreads'
    rw [hrest] at hrest'
    exact (Item.kind.inj (Item.operation.inj (Step.yield.inj (List.cons.inj hrest').1))).symm
  exact ⟨hlt, hkind, hkind ▸ hlookup⟩

/-- The reduction of a call. -/
theorem next_of_call {now : Reached invoke options source table} {p : Pending} {f : String}
    {d : Definition ι} (hreduces : now.moment.Reduces p) (hkind : p.kind = .callStart f)
    (hle : p.operator.arity ≤ now.moment.machine.values.length) (hget : now.present.get f = .ok d) :
    let arguments := (now.moment.machine.values.take p.operator.arity).reverse
    let called := invoke d.implementation arguments now.present
    now.next = ⟨(Machine.judged f called.result).map fun x =>
        now.moment.reduced (x :: now.moment.machine.values.drop p.operator.arity),
      called.state,
      .reduced p.position (.callStart f) arguments :: .called f arguments called.trace ::
        Machine.warnings f called.result⟩ := by
  intro arguments called
  have happlied : Machine.apply invoke arguments p.kind now.present =
      ⟨(Machine.judged f called.result).map some, called.state,
        .called f arguments called.trace :: Machine.warnings f called.result⟩ := by
    rw [hkind, Machine.apply_callStart (Machine.call_of_get invoke hget rfl)]
  rw [next, hreduces.next_eq, Run.bind_pure_apply, Machine.reduce_of_le hle happlied, hkind]
  cases Machine.judged f called.result <;> rfl

theorem evaluate_of_few {now : Reached invoke options source table} {p : Pending}
    (hreduces : now.moment.Reduces p)
    (hlt : now.moment.machine.values.length < p.operator.arity) :
    let fault := Fault.tooFewValues p.kind p.operator.arity now.moment.machine.values.length
    evaluate invoke options (some source) table =
      ⟨.error fault, now.present, now.trace ++ [.logged (.rejected fault)]⟩ := by
  have hnext : now.next = ⟨.error (.tooFewValues p.kind p.operator.arity
      now.moment.machine.values.length), now.present, []⟩ := by
    rw [next, hreduces.next_eq, Run.bind_pure_apply, Machine.reduce_of_lt hlt]
    rfl
  rw [evaluate_of_error (congrArg Outcome.result hnext), hnext]
  rfl

theorem evaluate_of_unknown {now : Reached invoke options source table} {p : Pending} {f : String}
    (hreduces : now.moment.Reduces p) (hkind : p.kind = .callStart f)
    (hle : p.operator.arity ≤ now.moment.machine.values.length)
    (hnone : now.present.find? f = none) :
    evaluate invoke options (some source) table =
      ⟨.error (.unknownFunction f), now.present, now.trace ++ [.reduced p.position (.callStart f)
        (now.moment.machine.values.take p.operator.arity).reverse]⟩ := by
  have happlied : Machine.apply invoke (now.moment.machine.values.take p.operator.arity).reverse
      p.kind now.present = ⟨.error (.unknownFunction f), now.present, []⟩ := by
    rw [hkind, Machine.apply_callStart (Machine.call_of_find_none invoke hnone _)]
    rfl
  have hnext : now.next = ⟨.error (.unknownFunction f), now.present, [.reduced p.position
      (.callStart f) (now.moment.machine.values.take p.operator.arity).reverse]⟩ := by
    rw [next, hreduces.next_eq, Run.bind_pure_apply, Machine.reduce_of_le hle happlied, hkind]
    rfl
  rw [evaluate_of_error (congrArg Outcome.result hnext), hnext]
  rfl

/-- **A call takes as many values as its function had when it was read, and runs what its function is
when it is reduced.** Whatever source and implementations do to the table in between: if too few
values are there, the call fails with the number of its reading, whether or not its function is still
there; if there are enough but no function, nothing is called and nothing reported; otherwise the
function of the moment of the reduction gets just these values, and what it gives takes their place.
Every call of a run is one of these, so that a function that was not touched in between gets as many
values as it takes. -/
theorem call_of_reached (invoke : Invocation ι) (options : Options) (source : List (Step ι))
    (table : FunctionTable ι) :
    let outcome := evaluate invoke options (some source) table
    (∀ (earlier now : Reached invoke options source table) (f : String) (p : Pending),
      earlier.moment.Reads (.callStart f) → now.moment.Reduces p →
      p.position = earlier.moment.machine.operatorsRead →
      ∃ d, earlier.present.get f = .ok d ∧ earlier.time < now.time ∧
        let values := now.moment.machine.values
        let arguments := (values.take d.arity).reverse
        let reduction := Event.reduced p.position (.callStart f) arguments
        (values.length < d.arity →
          let fault := Fault.tooFewValues (.callStart f) d.arity values.length
          outcome = ⟨.error fault, now.present, now.trace ++ [.logged (.rejected fault)]⟩) ∧
        (d.arity ≤ values.length → now.present.find? f = none →
          outcome = ⟨.error (.unknownFunction f), now.present, now.trace ++ [reduction]⟩) ∧
        ∀ d', d.arity ≤ values.length → now.present.get f = .ok d' →
          let called := invoke d'.implementation arguments now.present
          arguments.length = d.arity ∧
          now.trace ++ [reduction, .called f arguments called.trace] <+: outcome.trace ∧
          (∀ fault, Machine.judged f called.result = .error fault →
            outcome.result = .error fault ∧ outcome.state = called.state) ∧
          ∀ x, Machine.judged f called.result = .ok x →
            ∃ later : Reached invoke options source table, later.time = now.time + 1 ∧
              later.present = called.state ∧
              later.moment.machine.values = x :: values.drop d.arity) ∧
    ∀ f arguments inner, .called f arguments inner ∈ outcome.trace →
      ∃ (earlier now : Reached invoke options source table) (p : Pending) (d d' : Definition ι),
        earlier.moment.Reads (.callStart f) ∧ now.moment.Reduces p ∧
        p.position = earlier.moment.machine.operatorsRead ∧
        earlier.present.get f = .ok d ∧ now.present.get f = .ok d' ∧
        arguments = (now.moment.machine.values.take d.arity).reverse ∧ arguments.length = d.arity ∧
        inner = (invoke d'.implementation arguments now.present).trace ∧
        (now.present.get f = earlier.present.get f → arguments.length = d'.arity) := by
  intro outcome
  constructor
  · intro earlier now f p hreads hreduces hposition
    obtain ⟨hlt, hkind, hlookup⟩ := lookup_of_reads hreads hreduces.mem_held hposition.symm
    obtain ⟨d, hd, harity⟩ := Kind.arity_of_lookup_callStart hlookup
    refine ⟨d, hd, hlt, ?_⟩
    intro values arguments reduction
    refine ⟨fun hfew => ?_, fun hle hnone => ?_, fun d' hle hget => ?_⟩
    · have hevaluate := evaluate_of_few hreduces (harity ▸ hfew)
      rw [hkind, harity] at hevaluate
      exact hevaluate
    · have hevaluate := evaluate_of_unknown hreduces hkind (harity ▸ hle) hnone
      rw [harity] at hevaluate
      exact hevaluate
    · intro called
      have hnext := next_of_call hreduces hkind (harity ▸ hle) hget
      rw [harity] at hnext
      have hresult : now.next.result = (Machine.judged f called.result).map fun x =>
          now.moment.reduced (x :: values.drop d.arity) := congrArg Outcome.result hnext
      have htable : now.next.state = called.state := congrArg Outcome.state hnext
      refine ⟨Machine.length_arguments hle, ?_, fun fault hfault => ?_, fun x hx => ?_⟩
      · refine List.IsPrefix.trans ?_ now.next_begins
        rw [hnext]
        exact (List.prefix_append_right_inj _).2 (List.prefix_append _ _)
      · rw [hfault] at hresult
        have hevaluate := evaluate_of_error hresult
        rw [htable] at hevaluate
        exact ⟨congrArg Outcome.result hevaluate, congrArg Outcome.state hevaluate⟩
      · rw [hx] at hresult
        exact ⟨now.advance _ hresult, rfl, htable, rfl⟩
  · intro f arguments inner hcalled
    obtain ⟨now, hnow⟩ := exists_of_mem_evaluate hcalled fun fault h => by cases h
    obtain ⟨p, hreduces, hkind, hle, harguments, d', hget, hinner⟩ := Moment.call_of_mem_next hnow
    obtain ⟨earlier, _, hreads, hposition, hlookup⟩ := now.exists_read p hreduces.mem_held
    rw [hkind] at hreads hlookup
    obtain ⟨d, hd, harity⟩ := Kind.arity_of_lookup_callStart hlookup
    rw [harity] at hle harguments
    have hlength : arguments.length = d.arity := harguments ▸ Machine.length_arguments hle
    refine ⟨earlier, now, p, d, d', hreads, hreduces, hposition.symm, hd, hget, harguments, hlength,
      hinner, fun hsame => ?_⟩
    rw [hget, hd] at hsame
    rw [Except.ok.inj hsame]
    exact hlength

/-- The call `f(2, 3)` under a source that gives `f` another arity and another implementation before
the call ends: the new implementation gets two values, though it is registered for one. -/
theorem call_of_reached_replaced :
    let invoke := Routine.invoke ⟨false⟩ Routine.nestingLimit
    let source : List (Step Routine) :=
      Token.source [.operator (.callStart "f"), .number 2, .number 3] ++
        .register ⟨"f", 1, .sum⟩ :: Token.source [.operator (.control .endExpr)]
    let table : FunctionTable Routine := ⟨[⟨"f", 2, .digits⟩]⟩
    (evaluate invoke ⟨false⟩ (some source) table).result.toOption = some 5 ∧
    ∃ (earlier now : Reached invoke ⟨false⟩ source table) (d d' : Definition Routine),
      earlier.moment.Reads (.callStart "f") ∧
      earlier.present.get "f" = .ok d ∧ d.arity = 2 ∧ now.present.get "f" = .ok d' ∧ d'.arity = 1 ∧
      now.trace ++ [.reduced 0 (.callStart "f") [2, 3], .called "f" [2, 3] []] <+:
        (evaluate invoke ⟨false⟩ (some source) table).trace := by
  intro invoke source table
  have harrives : (Moment.start source).after invoke ⟨false⟩ 6 table =
      ⟨.ok ⟨⟨[3, 2], [⟨0, .callStart "f", .call 2⟩], 1⟩,
        some (.control .endExpr, Control.endExpr.operator), []⟩, ⟨[⟨"f", 1, .sum⟩]⟩,
        [.taken, .taken, .taken, .logged (.replaced "f" 1), .taken]⟩ := by
    rfl
  let earlier : Reached invoke ⟨false⟩ source table := start
  let now : Reached invoke ⟨false⟩ source table := ⟨6, _, _, _, harrives⟩
  have hreads : earlier.moment.Reads (.callStart "f") := ⟨rfl, _, rfl⟩
  have hreduces : now.moment.Reduces ⟨0, .callStart "f", .call 2⟩ :=
    ⟨(.control .endExpr, Control.endExpr.operator), rfl, rfl, rfl⟩
  obtain ⟨d, hd, _, _, _, hcall⟩ := (call_of_reached invoke ⟨false⟩ source table).1 earlier now "f" _
    hreads hreduces rfl
  obtain rfl : (⟨"f", 2, .digits⟩ : Definition Routine) = d := Except.ok.inj hd
  obtain ⟨_, hprefix, _⟩ := hcall ⟨"f", 1, .sum⟩ (Nat.le_refl 2) rfl
  exact ⟨by decide +kernel, earlier, now, _, _, hreads, hd, rfl, rfl, rfl, hprefix⟩

end Reached

end Reckoner
