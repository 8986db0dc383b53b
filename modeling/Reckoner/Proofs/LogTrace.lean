import Reckoner.Proofs.Acts

/-!
What stands in the log after a run. A run itself says nothing until it ends; if an implementation failed,
it warns of this, and if its fault rejects the stream, it says so in its last record. The warning comes
before the text of the failure is written, so that it stands alone where this cannot be done and the
stream is not rejected. Everything else that a run logs was logged by its acts, in their order: a
registration logs one record, and an evaluation inside of the run logs all of its own records, its
verdict included, before the run goes on (`records_of_evaluate`).
-/

namespace Reckoner

variable {ι : Type}

namespace Fault

/-- Only implementations raise errors of the library that were made by hand. -/
def isCrafted : Fault → Bool
  | crafted _ _ _ => true
  | _ => false

theorem isCrafted_quoting {f : String → Fault} (hf : ∀ t, (f t).isCrafted = false)
    (text : Except Signal String) : (quoting text f).isCrafted = false := by
  obtain ⟨t, _, h⟩ | ⟨signal, _, h⟩ := quoting_cases text f
  · rw [h, hf]
  · rw [h]
    rfl

end Fault

theorem Item.Refused.isCrafted_eq_false {options : Options} {table : FunctionTable ι} {item : Item}
    {fault : Fault} (h : item.Refused options table fault) : fault.isCrafted = false := by
  cases h with
  | payload hpayload =>
      rcases Value.eq_of_operand hpayload with rfl | rfl | rfl | ⟨_, rfl⟩ | rfl <;> rfl
  | subject hsubject => exact Fault.isCrafted_quoting (fun _ => rfl) _
  | kind k => rfl
  | value v => exact Fault.isCrafted_quoting (fun _ => rfl) _
  | unknown hnone => rfl
  | join hoff => rfl

/-- Calls wrap them. -/
theorem Machine.isCrafted_of_judged {name : String} {result : Except Fault Value} {fault : Fault}
    (h : judged name result = .error fault) : fault.isCrafted = false := by
  rcases error_of_judged h with ⟨cause, _, hstop, rfl⟩ | ⟨cause, _, _, rfl⟩ | ⟨v, _, hv⟩
  · obtain hpassed | ⟨signal, hpassed, _⟩ := Fault.eq_of_passed_stop hstop <;>
      exact congrArg Fault.isCrafted hpassed
  · obtain ⟨text, _, hfault⟩ | ⟨signal, _, hfault⟩ := Fault.ofCause_cases name cause <;>
      exact congrArg Fault.isCrafted hfault
  · obtain rfl | rfl | rfl := Value.asResult_eq_error hv
    · exact Fault.isCrafted_quoting (fun _ => rfl) _
    · rfl
    · rfl

namespace Job

variable {job : Job ι} {fault : Fault}

/-- So no evaluation ends in one. -/
theorem isCrafted_of_outcome (h : job.outcome.result = .error fault) : fault.isCrafted = false := by
  cases fails_of_outcome h with
  | refused hread hrefused => exact hrefused.isCrafted_eq_false
  | registration hread hrefused => exact congrArg Fault.isCrafted (Registration.eq_negativeArity hrefused)
  | call call hjudged => exact Machine.isCrafted_of_judged hjudged
  | _ => rfl

/-! ### Own records -/

theorem ownRecords_of_error (h : job.outcome.result = .error fault) :
    Event.ownRecords job.outcome.trace = fault.verdict := by
  rw [outcome, ownRecords_evaluate]
  change verdict job.outcome.result = _
  rw [h]
  rfl

/-- A run that warns has called an implementation that failed. -/
theorem caution_eq_nil (h : job.outcome.result = .error fault)
    (hcalls : ∀ (call : Call job) (cause : Fault), call.ended.result = .error cause →
      cause.isStop = true) : fault.caution = [] := by
  cases fails_of_outcome h with
  | refused hread hrefused => exact hrefused.caution_eq_nil
  | registration hread hrefused => exact congrArg Fault.caution (Registration.eq_negativeArity hrefused)
  | call call hjudged =>
      rcases Machine.error_of_judged hjudged with
        ⟨cause, _, hstop, rfl⟩ | ⟨cause, hended, hstop, _⟩ | ⟨v, _, hv⟩
      · exact (Fault.verdict_of_passed_stop hstop).1
      · rw [hcalls call cause hended] at hstop
        cases hstop
      · obtain rfl | rfl | rfl := Value.asResult_eq_error hv
        · exact Fault.caution_quoting (fun _ => rfl) _
        · rfl
        · rfl
  | _ => rfl

end Job

end Reckoner
