import Reckoner.Proofs.Arrival
import Reckoner.Proofs.FirstFault

/-!
What a run itself says to the log of the evaluator. What its calls log stands inside their events, and
registrations go to the log of the functions; what is left on the top level of its trace is the verdict
on its end (`ownRecords_evaluate`): nothing on a value or on a fault that does not reject the stream,
and otherwise one record that it was rejected, after a warning if an implementation failed. The warning
comes first, so that it is there, too, where the text of what was raised cannot be written and the stream
is not rejected any more. The verdict is the end of the trace (`trace_evaluate`).
-/

namespace Reckoner

def Event.ownRecords (trace : List Event) : List Record :=
  trace.filterMap fun
    | logged record => if record.channel = .evaluator then some record else none
    | _ => none

/-- The warning of an implementation that failed. -/
def Fault.caution : Fault → List Record
  | callFailed name _ cause => [.implementationRaised name cause]
  | unwritten name cause _ => [.implementationRaised name cause]
  | _ => []

/-- What a run that ends in a fault says of it. -/
def Fault.verdict (fault : Fault) : List Record :=
  fault.caution ++ if fault.rejectsStream then [.rejected fault] else []

/-- Of what failed, the part that is said before it is reported. -/
def cautions {α : Type} : Except Fault α → List Record
  | .ok _ => []
  | .error fault => fault.caution

/-- What a run says of its end. -/
def verdict {α : Type} : Except Fault α → List Record
  | .ok _ => []
  | .error fault => fault.verdict

namespace Event

theorem ownRecords_append (earlier later : List Event) :
    ownRecords (earlier ++ later) = ownRecords earlier ++ ownRecords later := List.filterMap_append

/-- What is said for the evaluator are its own records. -/
theorem ownRecords_map_logged {records : List Record}
    (h : ∀ record ∈ records, record.channel = .evaluator) :
    ownRecords (records.map logged) = records := by
  induction records with
  | nil => rfl
  | cons record records ih =>
      have hrecord := h record List.mem_cons_self
      have hrest := ih fun record' hrecord' => h record' (List.mem_cons_of_mem _ hrecord')
      simp only [ownRecords, List.map_cons, List.filterMap_cons, hrecord, if_true]
      exact congrArg _ hrest

end Event

theorem Fault.channel_verdict (fault : Fault) :
    ∀ record ∈ fault.verdict, record.channel = .evaluator := by
  intro record hrecord
  rw [verdict] at hrecord
  rcases List.mem_append.1 hrecord with hcaution | hrejected
  · cases fault with
    | callFailed name text cause =>
        rw [List.mem_singleton.1 hcaution]
        rfl
    | unwritten name cause signal =>
        rw [List.mem_singleton.1 hcaution]
        rfl
    | _ => cases hcaution
  · split at hrejected
    · rw [List.mem_singleton.1 hrejected]
      rfl
    · cases hrejected

theorem channel_verdict {α : Type} (result : Except Fault α) :
    ∀ record ∈ verdict result, record.channel = .evaluator := by
  cases result with
  | ok a => exact fun record hrecord => absurd hrecord List.not_mem_nil
  | error fault => exact fault.channel_verdict

namespace Fault

theorem caution_ofCause (name : String) (cause : Fault) :
    (ofCause name cause).caution = [.implementationRaised name cause] := by
  obtain ⟨text, _, h⟩ | ⟨signal, _, h⟩ := ofCause_cases name cause <;> exact congrArg caution h

/-- What quotes something is no failure of an implementation. -/
theorem caution_quoting {f : String → Fault} (hf : ∀ t, (f t).caution = [])
    (text : Except Signal String) : (quoting text f).caution = [] := by
  obtain ⟨t, _, h⟩ | ⟨signal, _, h⟩ := quoting_cases text f
  · rw [h, hf]
  · rw [h]
    rfl

/-- An order to stop passes in silence. -/
theorem verdict_of_passed_stop {fault : Fault} (h : fault.isStop = true) :
    fault.passed.caution = [] ∧ fault.passed.verdict = [] := by
  obtain hpassed | ⟨signal, hpassed, _⟩ := eq_of_passed_stop h <;> rw [hpassed] <;> exact ⟨rfl, rfl⟩

end Fault

/-- Items are refused in silence. -/
theorem Item.Refused.caution_eq_nil {ι : Type} {options : Options} {table : FunctionTable ι}
    {item : Item} {fault : Fault} (h : item.Refused options table fault) : fault.caution = [] := by
  cases h with
  | payload hpayload =>
      rcases Value.eq_of_operand hpayload with rfl | rfl | rfl | ⟨_, rfl⟩ | rfl <;> rfl
  | subject hsubject => exact Fault.caution_quoting (fun _ => rfl) _
  | kind k => rfl
  | value v => exact Fault.caution_quoting (fun _ => rfl) _
  | unknown hnone => rfl
  | join hoff => rfl

/-- The verdict is a warning and a report. -/
theorem Fault.map_verdict (fault : Fault) :
    fault.verdict.map Event.logged = fault.caution.map Event.logged ++ fault.report := by
  rw [verdict, List.map_append, report]
  split <;> rfl

variable {ι : Type}

/-! ### Reductions -/

namespace Machine

/-- A call whose implementation fails is warned about, unless it was ordered to stop. -/
theorem warnings_eq {name : String} {result : Except Fault Value} :
    warnings name result = (cautions (judged name result)).map Event.logged := by
  cases result with
  | error cause =>
      cases hstop : cause.isStop with
      | true =>
          have hnone := (Fault.verdict_of_passed_stop hstop).1
          simp [warnings, judged, cautions, hstop, Fault.ofCall_of_stop, hnone]
      | false =>
          simp [warnings, judged, cautions, hstop, Fault.ofCall_of_not_stop, Fault.caution_ofCause]
  | ok v =>
      rw [warnings, judged]
      cases h : v.asResult name with
      | ok x => rfl
      | error fault =>
          have hnone : fault.caution = [] := by
            obtain rfl | rfl | rfl := Value.asResult_eq_error h
            · exact Fault.caution_quoting (fun _ => rfl) _
            · rfl
            · rfl
          rw [cautions, hnone]
          rfl

theorem cautions_map {α β : Type} (result : Except Fault α) (f : α → β) :
    cautions (result.map f) = cautions result := by
  cases result <;> rfl

/-- What is no call fails without a warning. -/
theorem cautions_apply {invoke : Invocation ι} {k : Kind} (h : ∀ name, k ≠ .callStart name)
    (arguments : List Float) (table : FunctionTable ι) :
    cautions (apply invoke arguments k table).result = [] := by
  have hpair : ∀ f : Float → Float → Except Fault Float,
      (∀ a b, cautions (f a b) = []) → cautions (onTwo f arguments) = [] := by
    intro f hf
    unfold onTwo
    split
    · exact hf _ _
    · rfl
  cases k with
  | arithmetic op =>
      rw [apply, Run.ofExcept_result, cautions_map]
      cases op with
      | negate =>
          rcases arguments with _ | ⟨a, _ | ⟨b, rest⟩⟩ <;> rfl
      | _ => exact hpair _ fun a b => rfl
  | control marker =>
      rw [apply, Run.ofExcept_result]
      cases marker with
      | join =>
          rw [Control.apply, cautions_map]
          refine hpair joined fun a b => ?_
          unfold joined
          split <;> rfl
      | _ => rfl
  | callStart name => exact absurd rfl (h name)
  | callEnd => rfl
  | comma => rfl

/-- A reduction has a warning at its end, if any. -/
theorem trace_reduce (invoke : Invocation ι) (values : List Float) (p : Pending)
    (table : FunctionTable ι) :
    ∃ before, Event.ownRecords before = [] ∧ (reduce invoke values p table).trace =
      before ++ (cautions (reduce invoke values p table).result).map Event.logged := by
  have hreduction := reduction_reduce invoke values p table
  generalize reduce invoke values p table = outcome at hreduction ⊢
  cases hreduction with
  | tooFew hlt => exact ⟨[], rfl, rfl⟩
  | plain hle harguments hkind =>
      rw [cautions_map, cautions_apply hkind]
      exact ⟨[_], rfl, rfl⟩
  | unknown hle harguments hkind hnone => exact ⟨[_], rfl, rfl⟩
  | calls hle harguments hkind hget hcalled =>
      rw [cautions_map, warnings_eq]
      exact ⟨[_, _], rfl, rfl⟩

end Machine

/-! ### Whole runs -/

/-- Whatever a run does next, it has a warning at its end, if any. -/
theorem Moment.trace_next (invoke : Invocation ι) (options : Options) (c : Moment ι)
    (table : FunctionTable ι) :
    ∃ before, Event.ownRecords before = [] ∧ (c.next invoke options table).trace =
      before ++ (cautions (c.next invoke options table).result).map Event.logged := by
  have hdeed := deed_next invoke options c table
  generalize c.next invoke options table = outcome at hdeed ⊢
  cases hdeed with
  | refuses hrefused =>
      exact ⟨[.taken], rfl, by simp [cautions, hrefused.caution_eq_nil]⟩
  | @registers m r d rest h =>
      have hchannel := (d.level_record table).2
      exact ⟨[.logged (d.record table)], by simp [Event.ownRecords, hchannel], rfl⟩
  | refusesRegistration hrefused =>
      rw [Registration.eq_negativeArity hrefused]
      exact ⟨[], rfl, rfl⟩
  | reduces hreduces hreduction =>
      rw [← hreduction, Machine.cautions_map]
      exact Machine.trace_reduce invoke c.machine.values _ table
  | number hnumber => exact ⟨[.taken], rfl, rfl⟩
  | operator hoperator => exact ⟨[.taken], rfl, rfl⟩
  | _ => exact ⟨[], rfl, rfl⟩

namespace Reached

variable {invoke : Invocation ι} {options : Options} {source : List (Step ι)}
  {table : FunctionTable ι}

/-- Up to its end a run says nothing. -/
theorem ownRecords_trace (now : Reached invoke options source table) :
    Event.ownRecords now.trace = [] := by
  induction now using invariant with
  | hstart => rfl
  | hnext earlier c h ih =>
      obtain ⟨before, hbefore, htrace⟩ :=
        Moment.trace_next invoke options earlier.moment earlier.present
      have hsilent : earlier.next.trace = before := by
        have hcautions : cautions earlier.next.result = [] := by rw [h]; rfl
        rw [next, htrace]
        change before ++ (cautions earlier.next.result).map Event.logged = before
        rw [hcautions, List.map_nil, List.append_nil]
      change Event.ownRecords (earlier.trace ++ earlier.next.trace) = []
      rw [Event.ownRecords_append, ih, hsilent, hbefore]
      rfl

end Reached

/-- An evaluation ends with its verdict and says nothing else. -/
theorem trace_evaluate (invoke : Invocation ι) (options : Options) (source : Option (List (Step ι)))
    (table : FunctionTable ι) :
    ∃ before, Event.ownRecords before = [] ∧ (evaluate invoke options source table).trace =
      before ++ (verdict (evaluate invoke options source table).result).map Event.logged := by
  cases source with
  | none => exact ⟨[], rfl, rfl⟩
  | some source =>
      obtain ⟨last, hfinal | ⟨fault, hfault⟩⟩ :=
        Reached.exists_last (Reached.start : Reached invoke options source table)
      · refine ⟨last.trace, last.ownRecords_trace, ?_⟩
        rw [Reached.evaluate_of_final hfinal]
        cases hresult : last.moment.machine.result with
        | ok x => rfl
        | error fault =>
            obtain ⟨n, _, rfl⟩ := Machine.error_of_result hresult
            rfl
      · obtain ⟨before, hbefore, htrace⟩ :=
          Moment.trace_next invoke options last.moment last.present
        have hnext : last.next.trace = before ++ fault.caution.map Event.logged := by
          rw [Reached.next, htrace]
          change before ++ (cautions last.next.result).map Event.logged = _
          rw [hfault, cautions]
        refine ⟨last.trace ++ before, ?_, ?_⟩
        · rw [Event.ownRecords_append, last.ownRecords_trace, hbefore]
          rfl
        · rw [Reached.evaluate_of_error hfault, verdict, Fault.map_verdict, hnext]
          simp only [List.append_assoc]

theorem ownRecords_evaluate (invoke : Invocation ι) (options : Options)
    (source : Option (List (Step ι))) (table : FunctionTable ι) :
    Event.ownRecords (evaluate invoke options source table).trace =
      verdict (evaluate invoke options source table).result := by
  obtain ⟨before, hbefore, htrace⟩ := trace_evaluate invoke options source table
  rw [htrace, Event.ownRecords_append, hbefore, List.nil_append,
    Event.ownRecords_map_logged (channel_verdict _)]

end Reckoner
