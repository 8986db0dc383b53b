import Reckoner.Proofs.Failure

/-!
The first fault is the last thing that happens. What a source would do behind a fault is never asked
for, so that it has no part in anything that an evaluation leaves behind. An item that cannot be read
is refused before it has any effect: it is looked up before anything that waits is reduced, so that
it fails on the table and the trace that the items before it have left.
-/

namespace Reckoner

variable {ι : Type}

def Step.isYield : Step ι → Bool
  | .yield _ => true
  | _ => false

/-! ### Items that cannot be read -/

/-- The faults of payloads that have no double. -/
theorem Value.eq_of_operand {v : Value} {fault : Fault} (h : v.operand = .error fault) :
    fault = .integerTooLarge ∨ fault = .ratioTooLarge ∨ fault = .signalingNaN ∨
      (∃ text, fault = .notANumeral text) ∨ fault = .notReal v := by
  cases v with
  | bool b => cases h
  | float x => cases h
  | int n => exact Or.inl (integerOperand_eq_error h)
  | ratio q => exact Or.inr (Or.inl (ratioOperand_eq_error h))
  | decimal d =>
      rw [operand] at h
      split at h
      · cases h
      · exact Or.inr (Or.inr (Or.inl (Except.error.inj h).symm))
  | text s =>
      rw [operand] at h
      split at h
      · cases h
      · exact Or.inr (Or.inr (Or.inr (Or.inl ⟨_, (Except.error.inj h).symm⟩)))
  | bytes bs =>
      rw [operand] at h
      split at h
      · cases h
      · exact Or.inr (Or.inr (Or.inr (Or.inl ⟨_, (Except.error.inj h).symm⟩)))
  | _ => exact Or.inr (Or.inr (Or.inr (Or.inr (Except.error.inj h).symm)))

/-- A payload that has no double is not among the reasons to reject a stream. -/
theorem Value.report_of_operand {v : Value} {fault : Fault} (h : v.operand = .error fault) :
    fault.report = [] := by
  rcases eq_of_operand h with rfl | rfl | rfl | ⟨_, rfl⟩ | rfl <;> rfl

/-- What quotes something that cannot be written is not reported either. -/
theorem Fault.report_quoting {f : String → Fault} (hf : ∀ t, (f t).report = [])
    (text : Except Signal String) : (quoting text f).report = [] := by
  obtain ⟨t, _, h⟩ | ⟨signal, _, h⟩ := quoting_cases text f
  · rw [h, hf]
  · rw [h]
    rfl

namespace Item.Refused

variable {options : Options} {table : FunctionTable ι} {item : Item} {fault : Fault}

theorem report_eq_nil (h : item.Refused options table fault) : fault.report = [] := by
  cases h with
  | payload hpayload => exact Value.report_of_operand hpayload
  | subject hsubject => exact Fault.report_quoting (fun _ => rfl) _
  | kind k => rfl
  | value v => exact Fault.report_quoting (fun _ => rfl) _
  | unknown hnone => rfl
  | join hoff => rfl

/-- An item is refused as a token or by the look-up of its kind. -/
theorem token_or_lookup (h : item.Refused options table fault) :
    item.token = .error fault ∨
      ∃ k, item.token = .ok (.operator k) ∧ k.lookup options table = .error fault := by
  cases h with
  | @payload v _ hpayload => exact Or.inl (by rw [token, hpayload]; rfl)
  | @subject subject hsubject =>
      refine Or.inl ?_
      cases subject with
      | kind k => exact absurd rfl (hsubject k)
      | _ => rfl
  | kind k => exact Or.inl rfl
  | value v => exact Or.inl rfl
  | unknown hnone =>
      exact Or.inr ⟨_, rfl, by rw [Kind.lookup, FunctionTable.get_of_find_none hnone]; rfl⟩
  | join hoff => exact Or.inr ⟨_, rfl, by rw [Kind.lookup, hoff]; rfl⟩

/-- Reading an item that cannot be read takes it and does nothing else. -/
theorem step_eq (h : item.Refused options table fault) (invoke : Invocation ι) (m : Machine) :
    m.step invoke options (.yield item) table = ⟨.error fault, table, [.taken]⟩ := by
  have hread : (Run.ofExcept item.token >>= fun t => m.readToken invoke options t) table =
      ⟨.error fault, table, []⟩ := by
    rcases h.token_or_lookup with htoken | ⟨k, htoken, hlookup⟩
    · have hfails : (Run.ofExcept (.error fault) : Run (FunctionTable ι) Token) table =
          ⟨.error fault, table, []⟩ := rfl
      rw [htoken, Run.bind_of_error (congrArg Outcome.result hfails), hfails]
    · have hfails : (Run.ofExcept (.error fault) : Run (FunctionTable ι) Operator) table =
          ⟨.error fault, table, []⟩ := rfl
      rw [htoken, Run.ofExcept_ok, pure_bind, Machine.readToken, Machine.readOperator,
        Run.readOperators_bind, hlookup, Run.bind_of_error (congrArg Outcome.result hfails), hfails]
  have htaken : (Run.note .taken : Run (FunctionTable ι) Unit) table = ⟨.ok (), table, [.taken]⟩ := rfl
  rw [Machine.step, Run.bind_of_ok (congrArg Outcome.result htaken), htaken, hread]
  rfl

end Item.Refused

/-- A registration that is refused is not among the reasons to reject a stream. -/
theorem Registration.report_of_definition {r : Registration ι} {fault : Fault}
    (h : r.definition = .error fault) : fault.report = [] := by
  rw [definition] at h
  split at h
  · rw [← Except.error.inj h]
    rfl
  · cases h

def Fault.isOfCall : Fault → Bool
  | callFailed _ _ _ => true
  | unwritten _ _ _ => true
  | notNumeric _ _ => true
  | integerTooLarge => true
  | ratioTooLarge => true
  | raised _ => true
  | tooDeep => true
  | _ => false

theorem Machine.isOfCall_of_judged {name : String} {result : Except Fault Value} {fault : Fault}
    (h : judged name result = .error fault) : fault.isOfCall = true := by
  rcases error_of_judged h with ⟨cause, _, hstop, rfl⟩ | ⟨cause, _, _, rfl⟩ | ⟨v, _, hv⟩
  · obtain hpassed | ⟨signal, hpassed, _⟩ := Fault.eq_of_passed_stop hstop <;>
      exact congrArg Fault.isOfCall hpassed
  · obtain ⟨text, _, hfault⟩ | ⟨signal, _, hfault⟩ := Fault.ofCause_cases name cause <;>
      exact congrArg Fault.isOfCall hfault
  · obtain hfault | rfl | rfl := Value.asResult_eq_error hv
    · obtain ⟨text, _, hquoted⟩ | ⟨signal, _, hquoted⟩ :=
        Fault.quoting_cases v.written (.notNumeric name) <;>
        exact congrArg Fault.isOfCall (hfault.trans hquoted)
    · rfl
    · rfl

/-! ### How many items have been taken -/

/-- A reduction takes nothing from the source. -/
theorem Machine.takenIn_reduce (invoke : Invocation ι) (values : List Float) (p : Pending)
    (table : FunctionTable ι) : Event.takenIn (reduce invoke values p table).trace = 0 := by
  rw [Event.takenIn, List.countP_eq_zero]
  intro e he
  obtain ⟨_, rfl | ⟨_, _, _, _, rfl⟩ | ⟨_, rfl⟩⟩ := mem_reduce he <;> exact Bool.false_ne_true

/-- What a run takes is what its source yields. -/
theorem Moment.takenIn_next {invoke : Invocation ι} {options : Options} {c c' : Moment ι}
    {present : FunctionTable ι} (h : (c.next invoke options present).result = .ok c') :
    Event.takenIn (c.next invoke options present).trace + c'.rest.countP Step.isYield =
      c.rest.countP Step.isYield := by
  have hdeed := deed_next invoke options c present
  generalize c.next invoke options present = outcome at h hdeed
  cases hdeed with
  | refuses hrefused => cases h
  | refusesRegistration hrefused => cases h
  | reduces hreduces hreduction =>
      obtain ⟨values, _, rfl⟩ := Run.map_eq_ok h
      rw [← hreduction, Machine.takenIn_reduce, Nat.zero_add]
      rfl
  | number hnumber =>
      obtain rfl := Except.ok.inj h
      rw [List.countP_cons_of_pos rfl]
      exact Nat.add_comm 1 _
  | operator hoperator =>
      obtain rfl := Except.ok.inj h
      rw [List.countP_cons_of_pos rfl]
      exact Nat.add_comm 1 _
  | _ =>
      obtain rfl := Except.ok.inj h
      simp [Event.takenIn, Event.isTaken, Step.isYield]

namespace Reached

variable {invoke : Invocation ι} {options : Options} {source : List (Step ι)}
  {table : FunctionTable ι}

theorem takenIn_trace (now : Reached invoke options source table) :
    Event.takenIn now.trace + now.moment.rest.countP Step.isYield = source.countP Step.isYield := by
  induction now using invariant with
  | hstart => exact Nat.zero_add _
  | hnext before c h ih =>
      have hnext := Moment.takenIn_next h
      have hsum : Event.takenIn (before.trace ++ before.next.trace) =
          Event.takenIn before.trace + Event.takenIn before.next.trace := List.countP_append
      change Event.takenIn (before.trace ++ before.next.trace) + c.rest.countP Step.isYield = _
      rw [hsum, Nat.add_assoc]
      exact hnext ▸ ih

/-- The fault of the end is that of no other moment. -/
theorem ne_unreduced {now : Reached invoke options source table} {fault : Fault}
    (h : now.next.result = .error fault) (n : Nat) : fault ≠ .unreduced n := by
  rcases Moment.error_of_next h with
    ⟨item, _, hrefused⟩ | ⟨r, _, hrefused⟩ | ⟨p, hreduces, hfault⟩
  · rintro rfl
    exact absurd hrefused.report_eq_nil (List.cons_ne_nil _ _)
  · rintro rfl
    exact absurd (Registration.report_of_definition hrefused) (List.cons_ne_nil _ _)
  · rcases Machine.error_of_reduce (now.suits_of_held hreduces.mem_held) hfault with
      ⟨_, rfl⟩ | ⟨_, _, _, _, rfl⟩ | ⟨name, _, ⟨_, rfl⟩ | ⟨d, _, hjudged⟩⟩
    · exact Fault.noConfusion
    · exact Fault.noConfusion
    · exact Fault.noConfusion
    · rintro rfl
      exact Bool.false_ne_true (Machine.isOfCall_of_judged hjudged)

/-- A run whose only fault is that of the end reads its whole source. -/
theorem exists_final (h : ∀ fault, (evaluate invoke options (some source) table).result =
      .error fault → ∃ n, fault = .unreduced n) :
    ∃ last : Reached invoke options source table, last.moment.IsFinal := by
  obtain ⟨last, hfinal | ⟨fault, hfault⟩⟩ :=
    exists_last (start : Reached invoke options source table)
  · exact ⟨last, hfinal⟩
  · obtain ⟨n, hn⟩ := h fault (congrArg Outcome.result (evaluate_of_error hfault))
    exact absurd hn (ne_unreduced hfault n)

/-- Up to the end of its source, a run rejects the stream only by a reduction. -/
theorem exists_reduces_of_report {fault : Fault}
    (h : (evaluate invoke options (some source) table).result = .error fault)
    (hreport : fault.report ≠ []) (hend : ∀ n, fault ≠ .unreduced n) :
    ∃ (now : Reached invoke options source table) (p : Pending), now.moment.Reduces p ∧
      (Machine.reduce invoke now.moment.machine.values p now.present).result = .error fault := by
  obtain ⟨last, hfinal | ⟨fault', hfault⟩⟩ :=
    exists_last (start : Reached invoke options source table)
  · rw [evaluate_of_final hfinal] at h
    obtain ⟨n, _, hn⟩ := Machine.error_of_result h
    exact absurd hn (hend n)
  · rw [evaluate_of_error hfault] at h
    obtain rfl := Except.error.inj h
    rcases Moment.error_of_next hfault with
      ⟨item, _, hrefused⟩ | ⟨r, _, hrefused⟩ | ⟨p, hreduces, hreduced⟩
    · exact absurd hrefused.report_eq_nil hreport
    · exact absurd (Registration.report_of_definition hrefused) hreport
    · exact ⟨last, p, hreduces, hreduced⟩

end Reached

theorem Machine.steps_append (invoke : Invocation ι) (options : Options) (m : Machine)
    (pre post : List (Step ι)) :
    m.steps invoke options (pre ++ post) =
      m.steps invoke options pre >>= fun m' => m'.steps invoke options post := List.foldlM_append

/-- **The first fault ends an evaluation, and what comes behind it has no part in it.** Any fault but
that of the end makes the rest of the source irrelevant to all that an evaluation leaves behind: its
fault, its table and its trace, and so its calls, its records and the number of its items. And when
the source is read without a fault, an item behind it that cannot be read is taken and refused, on
the table and the trace that are there: nothing is reduced and nothing is called because of it. -/
theorem evaluate_append_of_error (invoke : Invocation ι) (options : Options)
    (pre post : List (Step ι)) (table : FunctionTable ι) :
    let first := evaluate invoke options (some pre) table
    (∀ fault, first.result = .error fault → (∀ n, fault ≠ .unreduced n) →
      evaluate invoke options (some (pre ++ post)) table = first) ∧
    ∀ (item : Item) (fault : Fault),
      (∀ fault', first.result = .error fault' → ∃ n, fault' = .unreduced n) →
      item.Refused options first.state fault →
      ∃ trace, first.trace = trace ++ report first.result ∧
        evaluate invoke options (some (pre ++ .yield item :: post)) table =
          ⟨.error fault, first.state, trace ++ [.taken]⟩ ∧
        Event.takenIn (trace ++ [.taken]) = pre.countP Step.isYield + 1 ∧
        Event.callsIn (trace ++ [.taken]) = Event.callsIn first.trace := by
  intro first
  constructor
  · intro fault hfault hne
    generalize hread : Machine.initial.steps invoke options pre table = read
    have hevaluate : first = _ := evaluate_of_steps hread
    cases hresult : read.result with
    | ok m =>
        rw [hevaluate, hresult] at hfault
        obtain ⟨n, _, hn⟩ := Machine.error_of_result hfault
        exact absurd hn (hne n)
    | error fault' =>
        have hboth : Machine.initial.steps invoke options (pre ++ post) table = read := by
          rw [Machine.steps_append, Run.bind_of_error (hread ▸ hresult), hread, ← hresult]
        rw [evaluate_of_steps hboth, hevaluate]
  · intro item fault hfirst hrefused
    obtain ⟨last, hfinal⟩ := Reached.exists_final hfirst
    have hread := Reached.steps_of_final hfinal
    have hevaluate : first = _ := Reached.evaluate_of_final hfinal
    have hstep := hrefused.step_eq invoke last.moment.machine
    rw [hevaluate] at hrefused hstep ⊢
    have hboth : Machine.initial.steps invoke options (pre ++ .yield item :: post) table =
        ⟨.error fault, last.present, last.trace ++ [.taken]⟩ := by
      rw [Machine.steps_append, Run.bind_of_ok (congrArg Outcome.result hread), hread,
        Machine.steps, List.foldlM_cons, Run.bind_of_error (congrArg Outcome.result hstep), hstep]
    refine ⟨last.trace, rfl, ?_, ?_, ?_⟩
    · rw [evaluate_of_steps hboth]
      change (⟨.error fault, last.present, last.trace ++ [.taken] ++ fault.report⟩ :
        Outcome (FunctionTable ι) Float) = _
      rw [hrefused.report_eq_nil, List.append_nil]
    · have htaken := last.takenIn_trace
      rw [hfinal.2] at htaken
      have hsum : Event.takenIn (last.trace ++ [.taken]) = Event.takenIn last.trace + 1 :=
        List.countP_append
      rw [hsum, ← htaken]
      rfl
    · have hreport : Event.callsIn (report last.moment.machine.result) = [] := by
        cases hresult : last.moment.machine.result with
        | ok x => rfl
        | error fault' =>
            obtain ⟨n, _, rfl⟩ := Machine.error_of_result hresult
            rfl
      rw [Event.callsIn_append, Event.callsIn_append, hreport]
      rfl

/-- A sign without a number fails for good; and a call of an unknown function is refused while the
call of another one waits, which it does not set off. -/
theorem evaluate_append_of_error_waiting :
    let invoke := Routine.invoke ⟨false⟩ Routine.nestingLimit
    let sign : List (Step Routine) :=
      Token.source [.operator (.arithmetic .negate), .operator (.control .endExpr)]
    let call : List (Step Routine) := Token.source [.operator (.callStart "f"), .number 1]
    let table : FunctionTable Routine := ⟨[⟨"f", 1, .sum⟩]⟩
    let outcome := evaluate invoke ⟨false⟩ (some (call ++
      .yield (.operation (.kind (.callStart "g"))) :: sign)) table
    evaluate invoke ⟨false⟩ (some (sign ++ call)) table =
      evaluate invoke ⟨false⟩ (some sign) table ∧
    outcome.result = .error (.unknownFunction "g") ∧
    Event.takenIn outcome.trace = 3 ∧ Event.callsIn outcome.trace = [] := by
  intro invoke sign call table outcome
  have hsign : (evaluate invoke ⟨false⟩ (some sign) table).result =
      .error (.tooFewValues (.arithmetic .negate) 1 0) := rfl
  have hcall : (evaluate invoke ⟨false⟩ (some call) table).result = .ok 1 := rfl
  have hrefused : (Item.operation (.kind (.callStart "g"))).Refused ⟨false⟩
      (evaluate invoke ⟨false⟩ (some call) table).state (.unknownFunction "g") := .unknown rfl
  obtain ⟨trace, _, houtcome, htaken, hcalls⟩ :=
    (evaluate_append_of_error invoke ⟨false⟩ call sign table).2 _ _
      (fun fault h => by rw [hcall] at h; cases h) hrefused
  refine ⟨(evaluate_append_of_error invoke ⟨false⟩ sign call table).1 _ hsign
    fun n => Fault.noConfusion, ?_⟩
  have houtcome : outcome = _ := houtcome
  rw [houtcome]
  exact ⟨rfl, htaken, hcalls⟩

end Reckoner
