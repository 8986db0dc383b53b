import Mathlib.Data.List.Basic
import Reckoner.Proofs.Binding
import Reckoner.Proofs.Reading

/-!
One reduction on one table. Where the operator finds its values it takes the latest of them and is
applied; a call then consults the table, runs the implementation it finds there and judges how this
one ended. Everything that a reduction does to the values, the table and the trace is said here, so
that nobody has to open `Machine.reduce` or `Machine.call` for it again.
-/

namespace Reckoner

variable {ι : Type}

theorem Run.map_eq_ok {α β : Type} {r : Except Fault α} {f : α → β} {b : β}
    (h : r.map f = .ok b) : ∃ a, r = .ok a ∧ f a = b := by
  cases r with
  | error fault => cases h
  | ok a => exact ⟨a, rfl, Except.ok.inj h⟩

theorem Run.map_eq_error {α β : Type} {r : Except Fault α} {f : α → β} {fault : Fault}
    (h : r.map f = .error fault) : r = .error fault := by
  cases r with
  | error fault' => rw [← Except.error.inj h]
  | ok a => cases h

theorem Run.bind_pure_apply {σ α β : Type} (x : Run σ α) (f : α → β) (s : σ) :
    (x >>= fun a => pure (f a)) s = ⟨(x s).result.map f, (x s).state, (x s).trace⟩ := by
  cases h : (x s).result with
  | error fault =>
      rw [bind_of_error h]
      rfl
  | ok a =>
      rw [bind_of_ok h, pure_apply, List.append_nil]
      rfl

theorem Kind.arity_of_lookup_callStart {options : Options} {table : FunctionTable ι} {name : String}
    {op : Operator} (h : (Kind.callStart name).lookup options table = .ok op) :
    ∃ d, table.get name = .ok d ∧ op.arity = d.arity := by
  obtain ⟨d, hd, hop⟩ := Run.map_eq_ok h
  exact ⟨d, hd, by rw [← hop]; rfl⟩

/-! ### Arithmetic on as many values as it takes -/

/-- Arithmetic never fails on as many values as it takes. -/
theorem Arithmetic.exists_apply (op : Arithmetic) {arguments : List Float}
    (h : arguments.length = op.operator.arity) : ∃ x, op.apply arguments = .ok x := by
  have hpair : ∀ f : Float → Float → Float, op.operator.arity = 2 →
      ∃ x, onTwo (fun a b => .ok (f a b)) arguments = .ok x := by
    intro f htwo
    obtain ⟨a, b, rfl⟩ := List.length_eq_two.1 (h.trans htwo)
    exact ⟨f a b, rfl⟩
  cases op with
  | negate =>
      obtain ⟨a, rfl⟩ := List.length_eq_one_iff.1 h
      exact ⟨-a, rfl⟩
  | _ => exact hpair _ rfl

/-- Joining two values fails for its own reason only. -/
theorem Control.apply_eq_error {marker : Control} {arguments : List Float} {fault : Fault}
    (hlen : arguments.length = marker.operator.arity) (h : marker.apply arguments = .error fault) :
    marker = .join ∧ ∃ a b, arguments = [a, b] ∧ lesser a b < 0 ∧ fault = .negativeJoin a b := by
  cases marker with
  | join =>
      obtain ⟨a, b, rfl⟩ := List.length_eq_two.1 hlen
      refine ⟨rfl, a, b, rfl, ?_⟩
      by_cases hneg : lesser a b < 0
      · have hfault : (Except.error (.negativeJoin a b) : Except Fault (Option Float)) =
            .error fault := by
          rw [← h, Control.apply, onTwo, joined, if_pos hneg]
          rfl
        exact ⟨hneg, (Except.error.inj hfault).symm⟩
      · rw [Control.apply, onTwo, joined, if_neg hneg] at h
        cases h
  | _ => cases h

/-! ### Faults that quote something -/

/-- An exception of a class that is none of the library's. -/
theorem Signal.label_notMem_of {labels : List String} (h : ∀ label ∈ labels, label ∈ libraryLabels)
    (signal : Signal) : signal.label ∉ labels := fun hlabel => signal.foreign (h _ hlabel)

namespace Fault

/-- What quotes a text is that fault, or what the attempt to write the text raises. -/
theorem quoting_cases (text : Except Signal String) (fault : String → Fault) :
    (∃ t, text = .ok t ∧ quoting text fault = fault t) ∨
      ∃ signal, text = .error signal ∧ quoting text fault = raised signal := by
  cases text with
  | ok t => exact Or.inl ⟨t, rfl, rfl⟩
  | error signal => exact Or.inr ⟨signal, rfl, rfl⟩

theorem ofCause_of_text {name : String} {cause : Fault} {text : String} (h : cause.text = .ok text) :
    ofCause name cause = callFailed name text cause := by
  rw [ofCause, h]

theorem ofCause_of_error {name : String} {cause : Fault} {signal : Signal}
    (h : cause.text = .error signal) : ofCause name cause = unwritten name cause signal := by
  rw [ofCause, h]

/-- A cause is wrapped together with its text, if it has one. -/
theorem ofCause_cases (name : String) (cause : Fault) :
    (∃ text, cause.text = .ok text ∧ ofCause name cause = callFailed name text cause) ∨
      ∃ signal, cause.text = .error signal ∧ ofCause name cause = unwritten name cause signal := by
  cases h : cause.text with
  | ok text => exact Or.inl ⟨text, rfl, ofCause_of_text h⟩
  | error signal => exact Or.inr ⟨signal, rfl, ofCause_of_error h⟩

/-- What a call makes of the fault of its implementation. -/
def ofCall (name : String) (cause : Fault) : Fault :=
  if cause.isStop then cause.passed else ofCause name cause

theorem ofCall_of_stop {name : String} {cause : Fault} (h : cause.isStop = true) :
    ofCall name cause = cause.passed := if_pos h

theorem ofCall_of_not_stop {name : String} {cause : Fault} (h : cause.isStop = false) :
    ofCall name cause = ofCause name cause := if_neg (Bool.eq_false_iff.1 h)

/-- An order to stop that has passed a call is an exception, or the end of the depth that the evaluator
was set up for. -/
theorem eq_of_passed_stop {fault : Fault} (h : fault.isStop = true) :
    fault.passed = .tooDeep ∨ ∃ signal, fault.passed = .raised signal ∧ signal.isStop = true := by
  cases fault with
  | tooDeep => exact Or.inl rfl
  | raised signal => exact Or.inr ⟨signal, rfl, h⟩
  | unwritten name cause signal => exact Or.inr ⟨signal, rfl, h⟩
  | _ => cases h

end Fault

/-! ### Numbers that have no double -/

namespace Value

theorem integerOperand_eq_error {n : Int} {fault : Fault} (h : integerOperand n = .error fault) :
    fault = .integerTooLarge := by
  rw [integerOperand] at h
  split at h
  · exact (Except.error.inj h).symm
  · cases h

theorem ratioOperand_eq_error {q : Rat} {fault : Fault} (h : ratioOperand q = .error fault) :
    fault = .ratioTooLarge := by
  rw [ratioOperand] at h
  split at h
  · exact (Except.error.inj h).symm
  · cases h

/-- A value that is no result is no number, or it has no double. -/
theorem asResult_eq_error {v : Value} {name : String} {fault : Fault}
    (h : v.asResult name = .error fault) :
    fault = .ofResult name v ∨ fault = .integerTooLarge ∨ fault = .ratioTooLarge := by
  cases v with
  | float x => cases h
  | int n => exact Or.inr (Or.inl (integerOperand_eq_error h))
  | ratio q => exact Or.inr (Or.inr (ratioOperand_eq_error h))
  | _ => exact Or.inl (Except.error.inj h).symm

end Value

/-- A reduction as a trace shows it. -/
structure ReductionRecord where
  position : Nat
  kind : Kind
  arguments : List Float

def Event.reduction? : Event → Option ReductionRecord
  | reduced position kind arguments => some ⟨position, kind, arguments⟩
  | _ => none

/-- The name of the function that the run itself called. -/
def Event.callName? : Event → Option String
  | called name _ _ => some name
  | _ => none

/-- What reads no records reads nothing off records alone. -/
theorem Event.filterMap_of_logged {β : Type} {f : Event → Option β}
    (hf : ∀ record, f (.logged record) = none) {trace : List Event}
    (h : ∀ e ∈ trace, ∃ record, e = .logged record) : trace.filterMap f = [] := by
  rw [List.filterMap_eq_nil_iff]
  intro e he
  obtain ⟨record, rfl⟩ := h e he
  exact hf record

namespace Machine

variable (invoke : Invocation ι)

/-! ### Calls -/

/-- What a call makes of the way in which its implementation ended. -/
def judged (name : String) : Except Fault Value → Except Fault Float
  | .ok v => v.asResult name
  | .error cause => .error (.ofCall name cause)

/-- What a call logs about the way in which its implementation ended. -/
def warnings (name : String) : Except Fault Value → List Event
  | .ok _ => []
  | .error cause => if cause.isStop then [] else [.logged (.implementationRaised name cause)]

/-- A call fails if it is ordered to stop, if its implementation fails, or if no result comes back. -/
theorem error_of_judged {name : String} {result : Except Fault Value} {fault : Fault}
    (h : judged name result = .error fault) :
    (∃ cause, result = .error cause ∧ cause.isStop = true ∧ fault = cause.passed) ∨
    (∃ cause, result = .error cause ∧ cause.isStop = false ∧ fault = .ofCause name cause) ∨
    ∃ v, result = .ok v ∧ v.asResult name = .error fault := by
  cases result with
  | ok v => exact Or.inr (Or.inr ⟨v, rfl, h⟩)
  | error cause =>
      have hfault := (Except.error.inj h).symm
      cases hstop : cause.isStop with
      | true => exact Or.inl ⟨cause, rfl, hstop, hfault.trans (Fault.ofCall_of_stop hstop)⟩
      | false => exact Or.inr (Or.inl ⟨cause, rfl, hstop, hfault.trans (Fault.ofCall_of_not_stop hstop)⟩)

theorem warnings_logged {name : String} {result : Except Fault Value} {e : Event}
    (h : e ∈ warnings name result) : ∃ record, e = .logged record := by
  cases result with
  | ok v => cases h
  | error cause =>
      rw [warnings] at h
      split at h
      · cases h
      · exact ⟨_, List.mem_singleton.1 h⟩

theorem call_of_find_none {table : FunctionTable ι} {name : String}
    (h : table.find? name = none) (arguments : List Float) :
    call invoke name arguments table = ⟨.error (.unknownFunction name), table, []⟩ := by
  have hdefinition : (Run.definition name : Run (FunctionTable ι) (Definition ι)) table =
      ⟨.error (.unknownFunction name), table, []⟩ := by
    rw [Run.definition, Run.readTable_bind, FunctionTable.get_of_find_none h]
    rfl
  rw [call, Run.bind_of_error (congrArg Outcome.result hdefinition), hdefinition]

/-- A call runs the implementation that the table holds and leaves the table as this one leaves it.
-/
theorem call_of_get {table : FunctionTable ι} {name : String} {d : Definition ι}
    (h : table.get name = .ok d) {arguments : List Float} {called : Outcome (FunctionTable ι) Value}
    (hcalled : invoke d.implementation arguments table = called) :
    call invoke name arguments table =
      ⟨judged name called.result, called.state,
        .called name arguments called.trace :: warnings name called.result⟩ := by
  have hdefinition : (Run.definition name : Run (FunctionTable ι) (Definition ι)) table =
      ⟨.ok d, table, []⟩ := by
    rw [Run.definition, Run.readTable_bind, h]
    rfl
  have hbody : ((invoke d.implementation arguments).asCall name arguments) table =
      ⟨.ok called.result, called.state, [.called name arguments called.trace]⟩ := by
    rw [← hcalled]
    rfl
  rw [call, Run.bind_of_ok (congrArg Outcome.result hdefinition), hdefinition,
    Run.bind_of_ok (congrArg Outcome.result hbody), hbody]
  cases called.result with
  | ok v =>
      simp only [Run.ofExcept_result, Run.ofExcept_state, Run.ofExcept_trace, judged, warnings]
      rfl
  | error cause =>
      cases hstop : cause.isStop with
      | true =>
          simp only [hstop, if_true, judged, warnings, Fault.ofCall_of_stop]
          rfl
      | false =>
          simp only [hstop, judged, warnings, Fault.ofCall_of_not_stop]
          rfl

/-! ### Reductions -/

variable {invoke}

theorem reduce_of_lt {values : List Float} {p : Pending} (h : values.length < p.operator.arity)
    (table : FunctionTable ι) :
    reduce invoke values p table =
      ⟨.error (.tooFewValues p.kind p.operator.arity values.length), table, []⟩ := by
  rw [reduce, if_pos h]
  rfl

/-- An operator that finds its values takes the latest of them, in the order of their arrival. -/
theorem reduce_of_le {values : List Float} {p : Pending} (h : p.operator.arity ≤ values.length)
    {table : FunctionTable ι} {applied : Outcome (FunctionTable ι) (Option Float)}
    (happlied : apply invoke (values.take p.operator.arity).reverse p.kind table = applied) :
    reduce invoke values p table =
      ⟨applied.result.map fun given => given.toList ++ values.drop p.operator.arity, applied.state,
        .reduced p.position p.kind (values.take p.operator.arity).reverse :: applied.trace⟩ := by
  rw [reduce, if_neg (Nat.not_lt.2 h), Run.bind_of_ok (a := ()) rfl, ← happlied]
  simp only [Run.bind_pure_apply]
  rfl

/-- An operator that is reduced has found its values. -/
theorem arity_le_of_reduce {values values' : List Float} {p : Pending} {table : FunctionTable ι}
    (h : (reduce invoke values p table).result = .ok values') :
    p.operator.arity ≤ values.length := by
  rcases Nat.lt_or_ge values.length p.operator.arity with hlt | hle
  · rw [reduce_of_lt hlt] at h
    cases h
  · exact hle

theorem length_arguments {values : List Float} {n : Nat} (h : n ≤ values.length) :
    (values.take n).reverse.length = n := by
  rw [List.length_reverse, List.length_take, Nat.min_eq_left h]

theorem apply_callStart {arguments : List Float} {name : String} {table : FunctionTable ι}
    {called : Outcome (FunctionTable ι) Float} (h : call invoke name arguments table = called) :
    apply invoke arguments (.callStart name) table =
      ⟨called.result.map some, called.state, called.trace⟩ := by
  rw [apply, Run.bind_pure_apply, h]

/-- What no call is leaves the table alone and traces nothing of its own. -/
theorem apply_of_ne_callStart {k : Kind} (h : ∀ name, k ≠ .callStart name) (arguments : List Float)
    (table : FunctionTable ι) :
    (apply invoke arguments k table).state = table ∧
      (apply invoke arguments k table).trace = [] := by
  cases k with
  | arithmetic op => exact ⟨Run.ofExcept_state _ _, Run.ofExcept_trace _ _⟩
  | control marker => exact ⟨Run.ofExcept_state _ _, Run.ofExcept_trace _ _⟩
  | callStart name => exact absurd rfl (h name)
  | callEnd => exact ⟨rfl, rfl⟩
  | comma => exact ⟨rfl, rfl⟩

/-- What a reduction may be, each with all that comes of it: one that lacks values, one that is no call, a
call of a function that is not there any more, and a call of one that is. -/
inductive Reduction (invoke : Invocation ι) (values : List Float) (p : Pending)
    (table : FunctionTable ι) : Outcome (FunctionTable ι) (List Float) → Prop where
  | tooFew (h : values.length < p.operator.arity) :
    Reduction invoke values p table
      ⟨.error (.tooFewValues p.kind p.operator.arity values.length), table, []⟩
  | plain {arguments : List Float} (h : p.operator.arity ≤ values.length)
    (harguments : arguments = (values.take p.operator.arity).reverse)
    (hkind : ∀ name, p.kind ≠ .callStart name) :
    Reduction invoke values p table
      ⟨(apply invoke arguments p.kind table).result.map
          fun given => given.toList ++ values.drop p.operator.arity,
        table, [.reduced p.position p.kind arguments]⟩
  | unknown {name : String} {arguments : List Float} (h : p.operator.arity ≤ values.length)
    (harguments : arguments = (values.take p.operator.arity).reverse)
    (hkind : p.kind = .callStart name) (hnone : table.find? name = none) :
    Reduction invoke values p table
      ⟨.error (.unknownFunction name), table, [.reduced p.position p.kind arguments]⟩
  | calls {name : String} {d : Definition ι} {arguments : List Float}
    {called : Outcome (FunctionTable ι) Value} (h : p.operator.arity ≤ values.length)
    (harguments : arguments = (values.take p.operator.arity).reverse)
    (hkind : p.kind = .callStart name) (hget : table.get name = .ok d)
    (hcalled : invoke d.implementation arguments table = called) :
    Reduction invoke values p table
      ⟨(judged name called.result).map fun x => x :: values.drop p.operator.arity, called.state,
        .reduced p.position p.kind arguments :: .called name arguments called.trace ::
          warnings name called.result⟩

theorem reduction_reduce (invoke : Invocation ι) (values : List Float) (p : Pending)
    (table : FunctionTable ι) : Reduction invoke values p table (reduce invoke values p table) := by
  rcases Nat.lt_or_ge values.length p.operator.arity with hlt | hle
  · rw [reduce_of_lt hlt]
    exact .tooFew hlt
  · rw [reduce_of_le hle rfl]
    by_cases hcall : ∃ name, p.kind = .callStart name
    · obtain ⟨name, hkind⟩ := hcall
      cases hget : table.get name with
      | error fault =>
          have hnone := (FunctionTable.get_eq_error hget).1
          rw [hkind, apply_callStart (call_of_find_none invoke hnone _), ← hkind]
          exact .unknown hle rfl hkind hnone
      | ok d =>
          rw [hkind, apply_callStart (call_of_get invoke hget rfl), ← hkind]
          have hmap : ∀ given : Except Fault Float, ((given.map some).map fun x =>
              x.toList ++ values.drop p.operator.arity) =
                given.map fun x => x :: values.drop p.operator.arity := by
            intro given
            cases given <;> rfl
          rw [hmap]
          exact .calls hle rfl hkind hget rfl
    · have hne : ∀ name, p.kind ≠ .callStart name := fun name hkind => hcall ⟨name, hkind⟩
      rw [(apply_of_ne_callStart hne _ table).1, (apply_of_ne_callStart hne _ table).2]
      exact .plain hle rfl hne

/-- The events of a reduction: its own, the call of what the table holds, and what this call logs. -/
theorem mem_reduce {values : List Float} {p : Pending} {table : FunctionTable ι} {e : Event}
    (h : e ∈ (reduce invoke values p table).trace) :
    p.operator.arity ≤ values.length ∧
      let arguments := (values.take p.operator.arity).reverse
      e = .reduced p.position p.kind arguments ∨
      (∃ name d, p.kind = .callStart name ∧ table.get name = .ok d ∧
        e = .called name arguments (invoke d.implementation arguments table).trace) ∨
      ∃ record, e = .logged record := by
  have hreduction := reduction_reduce invoke values p table
  generalize reduce invoke values p table = outcome at h hreduction
  cases hreduction with
  | tooFew hlt => cases h
  | plain hle harguments hkind =>
      refine ⟨hle, Or.inl ?_⟩
      rw [List.mem_singleton.1 h, harguments]
  | unknown hle harguments hkind hnone =>
      refine ⟨hle, Or.inl ?_⟩
      rw [List.mem_singleton.1 h, harguments]
  | @calls name d arguments called hle harguments hkind hget hcalled =>
      refine ⟨hle, ?_⟩
      rw [← harguments]
      rcases List.mem_cons.1 h with h | h
      · exact Or.inl h
      · rcases List.mem_cons.1 h with h | h
        · rw [← hcalled] at h
          exact Or.inr (Or.inl ⟨name, d, hkind, hget, h⟩)
        · exact Or.inr (Or.inr (warnings_logged h))

/-- A reduction that finds its values is the only one in its trace. -/
theorem reductions_reduce {values : List Float} {p : Pending}
    (h : p.operator.arity ≤ values.length) (table : FunctionTable ι) :
    (reduce invoke values p table).trace.filterMap Event.reduction? =
      [⟨p.position, p.kind, (values.take p.operator.arity).reverse⟩] := by
  have hreduction := reduction_reduce invoke values p table
  generalize reduce invoke values p table = outcome at hreduction
  cases hreduction with
  | tooFew hlt => exact absurd h (Nat.not_le.2 hlt)
  | plain hle harguments hkind => rw [harguments]; rfl
  | unknown hle harguments hkind hnone => rw [harguments]; rfl
  | @calls name d arguments called hle harguments hkind hget hcalled =>
      have hwarnings : (warnings name called.result).filterMap Event.reduction? = [] :=
        Event.filterMap_of_logged (fun _ => rfl) fun _ => warnings_logged
      change _ :: (warnings name called.result).filterMap Event.reduction? = _
      rw [hwarnings, harguments]

end Machine

end Reckoner
